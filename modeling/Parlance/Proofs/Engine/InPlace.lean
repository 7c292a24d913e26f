import Parlance.Proofs.Engine.Bearing
import Parlance.Proofs.Engine.Breaking
import Parlance.Proofs.Engine.Finding
import Parlance.Proofs.Engine.Patching
import Parlance.Proofs.Host.Stability

/-! Slots that stay keep their nodes where they are. Every node of a slot stands under the node that the slot is carried
out on, so a node that a diff leaves standing has not been moved by it; and what a diff makes is for slots that are
new. -/

namespace Parlance

open Pass

variable {ω : Type} {b : Behaviour ω} {t : Array Instance} {p q n : NodeId} {lexems : List Lexem} {slots : List Slot}
variable {slot : Slot} {posts : List Post} {σ σ' : Stage ω}

/-- The nodes that a slot has of its own: what it goes by, and markup. -/
def Slot.tops (t : Array Instance) : Slot → List NodeId
  | .component id => ((t[id.index]?).bind (·.witness)).toList
  | slot => slot.mark.tops

theorem Slot.tops_of_anchors (hn : n ∈ slot.anchors t) : n ∈ slot.tops t := by
  cases slot <;> simp_all [Slot.anchors, Slot.tops, Slot.mark, Slot.ends, Mark.tops]

/-- The nodes of a slot are links of its posts. -/
theorem Census.tops {ρ : Regime} (h : Census ρ t p lexems slots posts) (hslot : slot ∈ slots) (hn : n ∈ slot.tops t) :
    (p, n) ∈ linksOf posts := by
  induction h with
  | nil => cases hslot
  | @part p lexem first lexems slots inner outer hfirst _ _ _ _ ih =>
      simp only [linksOf_append, linksOf_cons, List.mem_append, List.mem_map]
      rcases List.mem_cons.mp hslot with rfl | hslot
      · refine .inr (.inl ⟨n, ?_, rfl⟩)
        cases slot with
        | component id => exact absurd rfl (hfirst id)
        | _ => exact hn
      · exact .inr (.inr (ih hslot))
  | @component p witness lexem id i r lexems slots inner outer hpresent _ _ hwitness _ _ _ _ _ ih =>
      simp only [linksOf_append, linksOf_cons, List.mem_append, List.mem_map]
      rcases List.mem_cons.mp hslot with rfl | hslot
      · exact .inr (.inl ⟨n, by simpa [Slot.tops, Mark.tops, hpresent, hwitness, eq_comm] using hn, rfl⟩)
      · exact .inr (.inr (ih hslot))

namespace Intact

variable {lexem : Lexem} {outer : Slot}

/-- One slot of those that are intact. -/
theorem of_mem (h : Intact σ p lexems slots) (hslot : slot ∈ slots) : ∃ lexem, Intact σ p [lexem] [slot] := by
  obtain ⟨left, right, rfl⟩ := List.append_of_mem hslot
  have hlength := h.length_eq
  have hleft : (lexems.take left.length).length = left.length := by
    rw [List.length_take, hlength, List.length_append]
    omega
  obtain ⟨lexem, rest, hrest⟩ := List.exists_cons_of_ne_nil (l := lexems.drop left.length) (by
    rw [ne_eq, List.drop_eq_nil_iff, hlength, List.length_append, List.length_cons]
    omega)
  rw [← List.take_append_drop left.length lexems, hrest] at h
  have hone : Intact σ p ([lexem] ++ rest) ([slot] ++ _) := h.right hleft
  exact ⟨lexem, hone.left rfl⟩

/-- The output of a component that is intact is intact itself. -/
theorem developed {id : InstanceId} {i : Instance} {r : Rendered} (h : Intact σ p [lexem] [.component id])
    (hpresent : σ.instances[id.index]? = some i) (hdeveloped : i.developed = some r) :
    Intact σ p r.sentence.lexems r.slots := by
  obtain ⟨cs, posts, hholds, hnodup, hcensus, hattached⟩ := h
  obtain ⟨i', r', inner, rfl, hpresent', hdeveloped', -, -, hinner⟩ := hholds.of_component
  cases hpresent.symm.trans hpresent'
  cases hdeveloped.symm.trans hdeveloped'
  obtain ⟨posts, witness, rfl, -, -, -, -, hcensusInner⟩ := hcensus.of_component hpresent hdeveloped
  rw [linksOf_append] at hattached
  exact ⟨inner, posts, hinner, (List.nodup_append.mp hnodup).1, hcensusInner, hattached.left⟩

/-- A slot that stands among slots that are intact has its nodes under the node that it is carried out on. -/
theorem tops (h : Intact σ p lexems slots) (hstands : Stands σ.instances p slots q slot)
    (hn : n ∈ slot.tops σ.instances) : σ.host.parent n = some q := by
  induction hstands generalizing lexems with
  | here hslot =>
      obtain ⟨cs, posts, -, -, hcensus, hattached⟩ := h
      exact hattached.parent _ (hcensus.tops hslot hn)
  | @plain p _ _ outer _ houter hplain _ ih =>
      obtain ⟨lexem, hone⟩ := h.of_mem houter
      obtain ⟨-, hinside⟩ := hone.parts (by rintro id rfl; exact hplain)
      have hsame : outer.inside p = p := by cases outer <;> first | rfl | exact absurd hplain id
      exact ih (hsame ▸ hinside) hn
  | element houter _ ih =>
      obtain ⟨lexem, hone⟩ := h.of_mem houter
      obtain ⟨-, hinside⟩ := hone.parts (by simp)
      exact ih hinside hn
  | component houter hpresent hdeveloped _ ih =>
      obtain ⟨lexem, hone⟩ := h.of_mem houter
      exact ih (hone.developed hpresent hdeveloped) hn

end Intact

variable {between : Host → ω → Host → ω → Prop} {σ₀ : Stage ω} {before after : Outputs} {r r' : Rendered} {e : Engine}
variable {s : Sentence} {os : Outputs} {cs : List InstanceId}

/-- One of the outputs that are retained is intact. -/
theorem Retained.intact (h : Retained .loose (before ++ (p, r) :: after) σ cs posts)
    (hattached : Attached σ.host (linksOf posts)) : r.Paired ∧ Intact σ p r.sentence.lexems r.slots := by
  obtain ⟨own, hown, hnodup, hpaired⟩ := h.part
  obtain ⟨left, right, rfl, -, hright⟩ := h.posted.split
  cases hright with
  | cons hcensus _ =>
  rw [linksOf_append, linksOf_append] at hattached
  exact ⟨hpaired, own, _, hown, hnodup, hcensus, hattached.right.left⟩

/-- A diff works by the rules, and its output is intact. -/
theorem diff_intact {R : Rules} (hquiet : b.Quiet) (hinside : ¬ R.inside) (hfirst : R.first ≤ σ.host.count)
    (hp : p.index < σ.host.count) (hpaired : r.Paired) (hintact : Intact σ p r.sentence.lexems r.slots)
    (hdiff : e.diff b p s r σ = .ok r' σ') :
    Host.Works R σ.host σ'.host ∧ Intact σ' p r'.sentence.lexems r'.slots := by
  have hevolves : EvolvesAll .loose b p (fun _ => True) σ [r] σ' [r'] :=
    (diffWithin_evolves (fun _ he => by cases he) hdiff).2
  have hone := hevolves.evolves (by simpa using hpaired)
  simp only [lexemsOf_cons, slotsOf_cons, lexemsOf_nil, slotsOf_nil, List.append_nil] at hone
  have hwhole : Intact σ p (r.sentence.lexems ++ []) (r.slots ++ []) := by simpa using hintact
  have hrenewed := hwhole.renew hquiet hinside hfirst hp hpaired.symm hone
  simpa using hrenewed

end Parlance
