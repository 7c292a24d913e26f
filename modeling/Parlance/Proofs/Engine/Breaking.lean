import Parlance.Proofs.Engine.Progress
import Parlance.Proofs.Engine.Sparing
import Parlance.Proofs.Engine.Tending

/-! Diffs that break off. When nothing has failed so far, every node of an output is still where it was put. A diff that
comes to an error has gone through some part of the output with success, and the rest is still as it was; so whatever
it has taken away by then has been found where it was put, and it has taken nothing away twice. -/

namespace Parlance

open Pass Warden

set_option linter.unusedSectionVars false

variable {ω : Type} {b : Behaviour ω} {R : Rules} {σ σ₁ σ' : Stage ω} {p : NodeId}

theorem Moves.attached {ρ : Regime} {posts posts' : List Post} (hquiet : b.Quiet) (hinside : ¬ R.inside)
    (hmoves : Moves ρ b σ posts σ' posts') (hfirst : R.first ≤ σ.host.count) (h : Attached σ.host (linksOf posts)) :
    Host.Works R σ.host σ'.host ∧ Attached σ'.host (linksOf posts') := by
  refine hmoves.preserves (I := fun τ ps => Host.Works R σ.host τ.host ∧ Attached τ.host (linksOf ps))
    (fun hmove hI => ?_) ⟨.refl _, h⟩
  obtain ⟨hworks, hattached⟩ := hmove.attached hquiet hinside (Nat.le_trans hfirst hI.1.later.count) hI.2
  exact ⟨hI.1.trans hworks, hattached⟩

/-- The first of some slots evolve, and the posts of all of them go along. -/
theorem Evolves.row {olds olds₂ lexems : List Lexem} {slots slots₂ slots' : List Slot} {cs : List InstanceId}
    {posts : List Post} (hnodes : b.KeepsNodes) (hp : p.index < σ.host.count) (hlength : olds.length = slots.length)
    (hevolves : Evolves .loose b p (fun _ => True) σ olds slots σ' lexems slots')
    (hholds : Holds σ.instances (slots ++ slots₂) cs) (hnodup : cs.Nodup)
    (hcensus : Census .loose σ.instances p (olds ++ olds₂) (slots ++ slots₂) posts)
    (hattached : Attached σ.host (linksOf posts)) :
    ∃ cs' posts', Holds σ'.instances (slots' ++ slots₂) cs' ∧ cs'.Nodup ∧
      Census .loose σ'.instances p (lexems ++ olds₂) (slots' ++ slots₂) posts' ∧ Moves .loose b σ posts σ' posts' := by
  obtain ⟨own, rest, rfl, hown, hrest⟩ := hholds.split
  obtain ⟨left, right, rfl, hleft, hright⟩ := hcensus.split hlength
  obtain ⟨hownNodup, hrestNodup, hdisjoint⟩ := List.nodup_append.mp hnodup
  obtain ⟨own', hown', hexchange⟩ := hevolves.turn own hown (mounted_blind hownNodup)
  have hagree : ∀ id ∈ rest, Agree σ.instances σ'.instances id := fun id hid =>
    hexchange.agree id (hrest.index_lt id hid) fun hmem => hdisjoint id hmem id hid rfl
  have hnodup' : (own' ++ rest).Nodup := by
    refine List.nodup_append.mpr ⟨hexchange.mounted.nodup, hrestNodup, fun id hid id' hid' heq => ?_⟩
    subst heq
    rcases hexchange.source id hid with hold | hnew
    · exact hdisjoint id hold id hid' rfl
    · exact Nat.not_lt.mpr hnew (hrest.index_lt id hid')
  obtain ⟨left', hleft', hmoves, -⟩ := hevolves.moves hown hownNodup hleft nofun
  have hgrounded : Grounded σ.host p left := by
    refine ⟨hp, fun n hn => ?_⟩
    obtain ⟨post, hpost, hmark⟩ := mem_elementsOf.mp hn
    refine hattached.made (post.node, n) (List.mem_flatMap.mpr ⟨post, List.mem_append_left _ hpost, ?_⟩)
    simp [hmark, Mark.tops]
  have hrow := hmoves hnodes (fun _ _ => trivial) [] right hgrounded fun _ => trivial
  rw [List.nil_append, List.nil_append] at hrow
  exact ⟨own' ++ rest, left' ++ right, hown'.append (hrest.congr hagree), hnodup',
    hleft'.append (hright.congr hrest hagree), hrow⟩

/-- Slots whose nodes are all where they were put, with components that each stand once. -/
def Intact (σ : Stage ω) (p : NodeId) (lexems : List Lexem) (slots : List Slot) : Prop :=
  ∃ cs posts, Holds σ.instances slots cs ∧ cs.Nodup ∧ Census .loose σ.instances p lexems slots posts ∧
    Attached σ.host (linksOf posts)

namespace Intact

variable {lexem : Lexem} {slot : Slot} {olds olds₂ lexems : List Lexem} {slots slots₂ slots' : List Slot}

theorem nil : Intact σ p [] [] := ⟨[], [], .nil, List.nodup_nil, .nil, nofun, List.nodup_nil⟩

theorem length_eq (h : Intact σ p olds slots) : olds.length = slots.length := by
  obtain ⟨cs, posts, -, -, hcensus, -⟩ := h
  exact hcensus.length_eq

theorem left (hlength : olds.length = slots.length) (h : Intact σ p (olds ++ olds₂) (slots ++ slots₂)) :
    Intact σ p olds slots := by
  obtain ⟨cs, posts, hholds, hnodup, hcensus, hattached⟩ := h
  obtain ⟨own, rest, rfl, hown, -⟩ := hholds.split
  obtain ⟨left, right, rfl, hleft, -⟩ := hcensus.split hlength
  rw [linksOf_append] at hattached
  exact ⟨own, left, hown, (List.nodup_append.mp hnodup).1, hleft, hattached.left⟩

theorem right (hlength : olds.length = slots.length) (h : Intact σ p (olds ++ olds₂) (slots ++ slots₂)) :
    Intact σ p olds₂ slots₂ := by
  obtain ⟨cs, posts, hholds, hnodup, hcensus, hattached⟩ := h
  obtain ⟨own, rest, rfl, -, hrest⟩ := hholds.split
  obtain ⟨left, right, rfl, -, hright⟩ := hcensus.split hlength
  rw [linksOf_append] at hattached
  exact ⟨rest, right, hrest, (List.nodup_append.mp hnodup).2.1, hright, hattached.right⟩

/-- The first slots evolve by the rules, and all stay intact. -/
theorem renew (hquiet : b.Quiet) (hinside : ¬ R.inside) (hfirst : R.first ≤ σ.host.count) (hp : p.index < σ.host.count)
    (hlength : olds.length = slots.length) (h : Intact σ p (olds ++ olds₂) (slots ++ slots₂))
    (hevolves : Evolves .loose b p (fun _ => True) σ olds slots σ' lexems slots') :
    Host.Works R σ.host σ'.host ∧ Intact σ' p (lexems ++ olds₂) (slots' ++ slots₂) := by
  obtain ⟨cs, posts, hholds, hnodup, hcensus, hattached⟩ := h
  obtain ⟨cs', posts', hholds', hnodup', hcensus', hmoves⟩ :=
    hevolves.row hquiet.keepsNodes hp hlength hholds hnodup hcensus hattached
  obtain ⟨hworks, hattached'⟩ := hmoves.attached hquiet hinside hfirst hattached
  exact ⟨hworks, cs', posts', hholds', hnodup', hcensus', hattached'⟩

/-- The first slots evolve by the rules, and the rest stays intact. -/
theorem evolve (hquiet : b.Quiet) (hinside : ¬ R.inside) (hfirst : R.first ≤ σ.host.count) (hp : p.index < σ.host.count)
    (hlength : olds.length = slots.length) (h : Intact σ p (olds ++ olds₂) (slots ++ slots₂))
    (hevolves : Evolves .loose b p (fun _ => True) σ olds slots σ' lexems slots') :
    Host.Works R σ.host σ'.host ∧ Intact σ' p olds₂ slots₂ := by
  obtain ⟨hworks, hintact⟩ := h.renew hquiet hinside hfirst hp hlength hevolves
  have hall := h.length_eq
  have hall' := hintact.length_eq
  rw [List.length_append, List.length_append] at hall hall'
  exact ⟨hworks, hintact.right (by omega)⟩

/-- What is inside a slot is intact as well. -/
theorem parts (hslot : ∀ id, slot ≠ .component id) (h : Intact σ p [lexem] [slot]) :
    (∀ r ∈ slot.parts, r.Paired) ∧ Intact σ (slot.inside p) (lexemsOf slot.parts) (slotsOf slot.parts) := by
  obtain ⟨cs, posts, hholds, hnodup, hcensus, hattached⟩ := h
  cases hholds with
  | component => exact absurd rfl (hslot _)
  | part _ hpaired hinner houter =>
  cases hcensus with
  | component => exact absurd rfl (hslot _)
  | part _ _ hcensusInner =>
  rw [linksOf_append] at hattached
  exact ⟨hpaired, _, _, hinner, (List.nodup_append.mp hnodup).1, hcensusInner, hattached.left⟩

/-- The output of a component is intact, also when the component forgets it. -/
theorem output {id : InstanceId} {i : Instance} {r : Rendered} (h : Intact σ p [lexem] [.component id])
    (hpresent : σ.instances[id.index]? = some i) (hdeveloped : i.developed = some r) :
    i.parent = p ∧ r.Paired ∧
      Intact (σ.onInstance id fun i => { i with developed := none }) p r.sentence.lexems r.slots := by
  obtain ⟨cs, posts, hholds, hnodup, hcensus, hattached⟩ := h
  obtain ⟨i', r', inner, rfl, hpresent', hdeveloped', hpaired, hlater, hinner⟩ := hholds.of_component
  rw [hpresent] at hpresent'
  cases hpresent'
  rw [hdeveloped] at hdeveloped'
  cases hdeveloped'
  obtain ⟨posts, witness, rfl, hparent, -, -, -, hcensusInner⟩ := hcensus.of_component hpresent hdeveloped
  have hagree : ∀ child ∈ inner, Agree σ.instances (σ.instances.modify id.index fun i =>
      { i with developed := none }) child := fun child hchild =>
    agree_modify _ _ fun heq => Nat.lt_irrefl _ (hlater id (heq ▸ hchild))
  rw [linksOf_append] at hattached
  exact ⟨hparent, hpaired, inner, posts, hinner.congr hagree, (List.nodup_append.mp hnodup).1,
    hcensusInner.congr hinner hagree, hattached.left⟩

end Intact

/-- A pass that comes to an error has worked by the rules until then. -/
def Breaks {α : Type} (R : Rules) (σ : Stage ω) (m : Pass ω α) : Prop :=
  ∀ e σ', m σ = .error (.error e) σ' → Host.Works R σ.host σ'.host

namespace Breaks

variable {α β : Type} {m : Pass ω α} {f : α → Pass ω β} {Q : α → Stage ω → Prop}

theorem pure {a : α} : Breaks R σ (Pure.pure a : Pass ω α) := nofun

theorem fail (e : PassError) : Breaks R σ (Pass.fail e : Pass ω α) := by
  rintro e σ' ⟨⟩
  exact .refl _

theorem bind (hm : Breaks R σ m)
    (hf : ∀ a σ₁, m σ = .ok a σ₁ → Host.Works R σ.host σ₁.host ∧ Breaks R σ₁ (f a)) : Breaks R σ (m >>= f) := by
  intro e σ' h
  change EStateM.bind m f σ = _ at h
  unfold EStateM.bind at h
  cases hrun : m σ with
  | ok a σ₁ =>
      rw [hrun] at h
      obtain ⟨hworks, hbreaks⟩ := hf a σ₁ hrun
      exact hworks.trans (hbreaks e σ' h)
  | error cause σ₁ =>
      rw [hrun] at h
      cases h
      exact hm _ _ hrun

theorem read {g : Array Instance → Pass ω β} (hg : Breaks R σ (g σ.instances)) : Breaks R σ (Pass.instances >>= g) := hg

/-- Guarded passes keep to the rules, also when they come to an error. -/
theorem of_guards (hm : R.warden.Guards True σ m Q) (hsafe : R.warden.Safe σ) : Breaks R σ m := fun _ _ hrun =>
  (hm.error hsafe hrun).2.1.host

/-- Passes that cannot come to an error. -/
theorem sure (hm : R.lax.warden.Guards False σ m Q) (hsafe : R.lax.warden.Safe σ) : Breaks R σ m := fun _ _ hrun =>
  (hm.error hsafe hrun).1.elim

theorem check {x : Except PassError α} (hf : ∀ a, x = .ok a → Breaks R σ (f a)) : Breaks R σ (Pass.ofExcept x >>= f) := by
  cases x with
  | error e => exact .bind (.fail e) fun _ _ hrun => (fail_eq_ok.mp hrun).elim
  | ok a =>
      refine .bind .pure fun a' σ₁ hrun => ?_
      obtain ⟨rfl, rfl⟩ := pure_eq_ok.mp hrun
      exact ⟨.refl _, hf a rfl⟩

/-- One that only evaluates comes first. -/
theorem evaluated (hm : R.warden.Guards True σ m Q) (hsafe : R.warden.Safe σ)
    (hworld : ∀ {a σ₁}, m σ = .ok a σ₁ → ∃ w, σ₁ = σ.inWorld w ∧ Evaluation b σ.world w)
    (hf : ∀ a w, m σ = .ok a (σ.inWorld w) → Breaks R (σ.inWorld w) (f a)) : Breaks R σ (m >>= f) := by
  refine .bind (.of_guards hm hsafe) fun a σ₁ hrun => ?_
  obtain ⟨w, rfl, -⟩ := hworld hrun
  exact ⟨.refl _, hf a w hrun⟩

/-- The world is told something before. -/
theorem acted {action : Act ω α} (hf : ∀ a w, action σ.world = .ok a w → Breaks R (σ.inWorld w) (f a)) :
    Breaks R σ (Pass.act action >>= f) := by
  refine .bind (fun e σ' h => ?_) fun a σ₁ hrun => ?_
  · unfold Pass.act at h
    split at h <;> cases h
  · obtain ⟨w, hcall, rfl⟩ := act_eq_ok.mp hrun
    exact ⟨.refl _, hf a w hcall⟩

/-- Whatever comes after cannot fail. -/
theorem ended (hm : Breaks R σ m) (hf : ∀ a σ₁, m σ = .ok a σ₁ → ∀ e σ', f a σ₁ ≠ .error (.error e) σ') :
    Breaks R σ (m >>= f) := by
  intro e σ' h
  change EStateM.bind m f σ = _ at h
  unfold EStateM.bind at h
  cases hrun : m σ with
  | ok a σ₁ =>
      rw [hrun] at h
      exact absurd h (hf a σ₁ hrun e σ')
  | error cause σ₁ =>
      rw [hrun] at h
      cases h
      exact hm _ _ hrun

/-- Whatever comes after is guarded and cannot fail. -/
theorem finished (hm : Breaks R σ m) (hguards : R.lax.warden.Guards True σ m Q)
    (hsafe : R.lax.warden.Safe σ)
    (hf : ∀ a σ₁, R.lax.warden.Onward σ σ₁ → Q a σ₁ → R.lax.warden.Guards False σ₁ (f a) fun _ _ => True) :
    Breaks R σ (m >>= f) := by
  refine hm.ended fun a σ₁ hrun e σ' hrest => ?_
  obtain ⟨honward, hsafe₁, ha⟩ := hguards.ok hsafe hrun
  exact ((hf a σ₁ honward ha).error hsafe₁ hrest).1

/-- The result is put to use. -/
theorem map {g : α → β} (hm : Breaks R σ m) : Breaks R σ (m >>= fun a => Pure.pure (g a)) := hm.ended fun _ _ _ => nofun

end Breaks

variable {c : Cursor} {olds olds₂ lexems : List Lexem} {slots slots₂ slots' : List Slot} {previous : Rendered}

/-- Slots that stand at a cursor as they were put there. -/
structure Unspoilt (R : Rules) (σ : Stage ω) (c : Cursor) (lexems : List Lexem) (slots : List Slot) : Prop where
  within : c.Within σ.host
  safe : R.warden.Safe σ
  own : R.warden.Own σ.host c.parent slots
  intact : Intact σ c.parent lexems slots

namespace Unspoilt

theorem nil (hc : c.Within σ.host) (hsafe : R.warden.Safe σ) : Unspoilt R σ c [] [] := ⟨hc, hsafe, .nil, .nil⟩

theorem lax (h : Unspoilt R σ c olds slots) : R.lax.warden.Safe σ ∧ R.lax.warden.Own σ.host c.parent slots :=
  ⟨Rules.safe h.safe.host h.safe, Rules.own h.own⟩

theorem inWorld (h : Unspoilt R σ c olds slots) (w : ω) : Unspoilt R (σ.inWorld w) c olds slots :=
  ⟨h.within, h.safe.turned (.refl _), h.own, h.intact⟩

theorem left (hlength : olds.length = slots.length) (h : Unspoilt R σ c (olds ++ olds₂) (slots ++ slots₂)) :
    Unspoilt R σ c olds slots := ⟨h.within, h.safe, h.own.split.1, h.intact.left hlength⟩

/-- Some slots evolve, and the rest stays as it was put. -/
theorem evolve {α : Type} {m : Pass ω α} {a : α} {Q : α → Stage ω → Prop} (hquiet : b.Quiet) (hinside : ¬ R.inside)
    (h : Unspoilt R σ c (olds ++ olds₂) (slots ++ slots₂)) (hlength : olds.length = slots.length)
    (hguards : R.lax.warden.Guards True σ m Q) (hrun : m σ = .ok a σ')
    (hevolves : Evolves .loose b c.parent (fun _ => True) σ olds slots σ' lexems slots') :
    Host.Works R σ.host σ'.host ∧ Unspoilt R σ' c olds₂ slots₂ := by
  obtain ⟨hworks, hintact⟩ := h.intact.evolve hquiet hinside h.safe.host h.within.parent hlength hevolves
  obtain ⟨honward, hsafe, -⟩ := hguards.ok h.lax.1 hrun
  have hown : R.lax.warden.Own σ'.host c.parent slots₂ := h.lax.2.split.2.onward honward
  exact ⟨hworks, h.within.onward honward, Rules.safe hsafe.host hsafe, Rules.own hown, hintact⟩

end Unspoilt

namespace Engine

/-- A diff as deep as one likes breaks off by the rules. -/
def DiffBreaks (R : Rules) (diff : Engine → Cursor → Phrase → Rendered → Pass ω Rendered) : Prop :=
  ∀ (σ : Stage ω) e c phrase previous, previous.Paired → Unspoilt R σ c previous.sentence.lexems previous.slots →
    Breaks R σ (diff e c phrase previous)

/-- What is known of the passes for what is inside a lexem. -/
structure Deeper (R : Rules) (b : Behaviour ω) (render : Cursor → Phrase → Pass ω Rendered)
    (diff : Engine → Cursor → Phrase → Rendered → Pass ω Rendered) : Prop where
  renders : RenderGuards R.warden render
  rendersLax : RenderGuards R.lax.warden render
  diffsLax : DiffGuards R.lax.warden diff
  renderEvolves : RenderEvolves .loose b render
  renderRenews : Renders (Watch.blind b) render
  diffEvolves : DiffEvolves .loose b diff
  diffRenews : Diffs (Watch.blind b) diff
  breaks : DiffBreaks R diff

section Diffing

variable {render : Cursor → Phrase → Pass ω Rendered} {diff : Engine → Cursor → Phrase → Rendered → Pass ω Rendered}
variable (hquiet : b.Quiet) (hinside : ¬ R.inside) (hdeeper : Deeper R b render diff)
variable (e : Engine) (lexem old : Lexem) {index : Nat}

/-- One output after another. -/
theorem matched_breaks {m : Pass ω Rendered} {rest : Pass ω (List Rendered × List Rendered)} (hm : Breaks R σ m)
    (hrest : ∀ r σ₁, m σ = .ok r σ₁ → Host.Works R σ.host σ₁.host ∧ Breaks R σ₁ rest) : Breaks R σ (do
      let r ← m
      let (rs, rest) ← rest
      pure (r :: rs, rest)) :=
  .bind hm fun r σ₁ hrun => ⟨(hrest r σ₁ hrun).1, (hrest r σ₁ hrun).2.map⟩

include hdeeper in
/-- What is rendered when nothing is left to be diffed. -/
theorem new_breaks {phrase : Phrase} {rest : Pass ω (List Rendered × List Rendered)} (hc : c.Within σ.host)
    (hsafe : R.warden.Safe σ) (hrest : ∀ σ₁ : Stage ω, c.Within σ₁.host → R.warden.Safe σ₁ → Breaks R σ₁ rest) :
    Breaks R σ (do
      let r ← render c phrase
      let (rs, rest) ← rest
      pure (r :: rs, rest)) := by
  have hguards := hdeeper.renders σ c phrase hc
  refine matched_breaks (.of_guards hguards hsafe) fun r σ₁ hrun => ?_
  obtain ⟨honward, hsafe₁, -⟩ := hguards.ok hsafe hrun
  exact ⟨honward.host, hrest σ₁ (hc.onward honward) hsafe₁⟩

include hquiet hinside hdeeper in
/-- The first of some outputs is diffed. -/
theorem kept_breaks {phrase : Phrase} {rs : List Rendered} {rest : Pass ω (List Rendered × List Rendered)}
    (hpaired : previous.Paired) (h : Unspoilt R σ c (lexemsOf (previous :: rs)) (slotsOf (previous :: rs)))
    (hrest : ∀ σ₁ : Stage ω, Unspoilt R σ₁ c (lexemsOf rs) (slotsOf rs) → Breaks R σ₁ rest) : Breaks R σ (do
      let r ← diff e c phrase previous
      let (rs, rest) ← rest
      pure (r :: rs, rest)) := by
  rw [lexemsOf_cons, slotsOf_cons] at h
  have hfirst := h.left hpaired.symm
  refine matched_breaks (hdeeper.breaks σ e c phrase previous hpaired hfirst) fun r σ₁ hrun => ?_
  obtain ⟨-, hall⟩ := hdeeper.diffEvolves nofun hrun
  have hevolves := hall.evolves (by simpa using hpaired)
  simp only [lexemsOf_cons, slotsOf_cons, lexemsOf_nil, slotsOf_nil, List.append_nil] at hevolves
  have hguards := hdeeper.diffsLax σ e c phrase previous h.within hfirst.lax.2
  obtain ⟨hworks, hstands⟩ := h.evolve hquiet hinside hpaired.symm hguards hrun hevolves
  exact ⟨hworks, hrest σ₁ hstands⟩

include hquiet hinside hdeeper

theorem diffItems_breaks (phrases : List Phrase) : ∀ {σ : Stage ω} (rs : List Rendered), (∀ r ∈ rs, r.Paired) →
    Unspoilt R σ c (lexemsOf rs) (slotsOf rs) → Breaks R σ (diffItems render diff e c phrases rs) := by
  induction phrases with
  | nil => exact fun _ _ _ => .pure
  | cons phrase phrases ih =>
      intro σ rs hpaired h
      cases rs with
      | nil => exact new_breaks hdeeper h.within h.safe fun σ₁ hc hsafe => ih [] hpaired (.nil hc hsafe)
      | cons previous rs =>
          exact kept_breaks hquiet hinside hdeeper e (hpaired _ List.mem_cons_self) h fun σ₁ hrest =>
            ih rs (fun r hr => hpaired r (List.mem_cons_of_mem _ hr)) hrest

theorem diffChildren_breaks (children : List Arg) :
    ∀ {σ : Stage ω} (oldChildren : List Arg) (rs : List Rendered), (∀ r ∈ rs, r.Paired) →
      Unspoilt R σ c (lexemsOf rs) (slotsOf rs) →
      Breaks R σ (diffChildren render diff e c lexem children oldChildren rs) := by
  induction children with
  | nil => exact fun _ _ _ _ => .pure
  | cons child children ih =>
      intro σ oldChildren rs hpaired h
      cases rs with
      | nil =>
          exact .check fun phrase _ => new_breaks hdeeper h.within h.safe fun σ₁ hc hsafe =>
            ih [] [] hpaired (.nil hc hsafe)
      | cons previous rs =>
          have hprevious := hpaired _ List.mem_cons_self
          have hrest : ∀ σ₁ : Stage ω, Unspoilt R σ₁ c (lexemsOf rs) (slotsOf rs) →
              Breaks R σ₁ (diffChildren render diff e c lexem children oldChildren.tail rs) := fun σ₁ =>
            ih oldChildren.tail rs fun r hr => hpaired r (List.mem_cons_of_mem _ hr)
          unfold diffChildren
          split
          · refine matched_breaks .pure fun r σ₁ hrun => ?_
            obtain ⟨rfl, rfl⟩ := pure_eq_ok.mp hrun
            rw [lexemsOf_cons, slotsOf_cons] at h
            exact ⟨.refl _, hrest σ ⟨h.within, h.safe, h.own.split.2, h.intact.right hprevious.symm⟩⟩
          · exact .check fun phrase _ => kept_breaks hquiet hinside hdeeper e hprevious h hrest

omit hdeeper in
theorem teardown_works {developed : Option Rendered} (hpaired : ∀ r ∈ developed.toList, r.Paired)
    (h : Unspoilt R σ c (lexemsOf developed.toList) (slotsOf developed.toList))
    (hrun : developed.forM (teardown b c.parent) σ = .ok () σ₁) :
    Host.Works R σ.host σ₁.host ∧ Unspoilt R σ₁ c [] [] := by
  cases developed with
  | none =>
      obtain ⟨-, rfl⟩ := pure_eq_ok.mp hrun
      exact ⟨.refl _, h⟩
  | some r =>
      have hremoved : EvolvesAll .loose b c.parent (fun _ => True) σ [r] σ₁ [] :=
        teardown_evolves hrun
      have hr : r.Paired := hpaired r List.mem_cons_self
      have hevolves := hremoved.evolves (by simpa using hr)
      simp only [Option.toList, lexemsOf_cons, slotsOf_cons, lexemsOf_nil, slotsOf_nil] at h hevolves
      rw [List.append_nil, List.append_nil] at hevolves
      have hguards : R.lax.warden.Guards True σ (teardown b c.parent r) fun _ _ => True :=
        teardown_guards Rules.drops_lax (Rules.hooks_lax hquiet hinside) h.within.parent (by simpa using h.lax.2)
      exact h.evolve hquiet hinside hr.symm hguards hrun hevolves

theorem diffTag_breaks {element : NodeId} {kids : List Rendered} (h : Unspoilt R σ c [old] [.element element kids]) :
    Breaks R σ (diffTag b render diff e c lexem old element kids) := by
  have hhooks : R.lax.warden.Hooks b := Rules.hooks_lax hquiet hinside
  obtain ⟨hsafe, hown⟩ := h.lax
  have helement := h.own.nodes element (by simp [Slot.mark, Mark.tops])
  obtain ⟨hpaired, hkids⟩ := h.intact.parts (by simp)
  refine .check fun tag _ => .check fun oldTag _ => ?_
  split
  · have hbefore := h.within.before helement.1
    refine .finished (.of_guards (renderTag_guards hdeeper.renders e lexem hbefore) h.safe)
      (renderTag_guards hdeeper.rendersLax e lexem hbefore) hsafe fun slot σ₁ h₁ _ => ?_
    exact .seq (teardownSlot_guards Rules.drops_lax hhooks (h₁.count h.within.parent) old (hown.onward h₁)) fun _ _ =>
      .pure fun _ _ => trivial
  · have hwithin : (c.inside element).Within σ.host := .inside helement.1
    have hunspoilt : Unspoilt R σ (c.inside element) (lexemsOf kids) (slotsOf kids) :=
      ⟨hwithin, h.safe, .of_all h.own.parts, hkids⟩
    refine .finished (diffChildren_breaks hquiet hinside hdeeper e lexem _ _ kids hpaired hunspoilt)
      (diffChildren_guards hdeeper.rendersLax hdeeper.diffsLax e lexem _ _ kids hwithin hown.parts) hsafe
      fun result σ₁ h₁ hresult => ?_
    exact .seq (teardowns_guards Rules.drops_lax hhooks (h₁.count helement.1) hresult.2) fun _ _ =>
      .pure fun _ _ => trivial

/-- A choice: what was chosen before is diffed, or it is removed, which cannot fail, and something else is rendered. -/
theorem diffBranch_breaks {witness : NodeId} {developed : Option Rendered} (chosen : Option Phrase) (replace : Bool)
    (h : Unspoilt R σ c [old] [.branch witness developed]) :
    Breaks R σ (diffBranch b render diff e c witness chosen developed replace) := by
  have hwitness := h.own.nodes witness (by simp [Slot.mark, Mark.tops, Slot.ends])
  obtain ⟨hpaired, hdeveloped⟩ := h.intact.parts (by simp)
  have hparts : Unspoilt R σ c (lexemsOf developed.toList) (slotsOf developed.toList) :=
    ⟨h.within, h.safe, .of_all h.own.parts, hdeveloped⟩
  have hremove : Breaks R σ (developed.forM (teardown b c.parent)) := by
    refine .sure (Q := fun _ _ => True) ?_ h.lax.1
    cases developed with
    | none => exact .pure fun _ _ => trivial
    | some r =>
        exact teardown_guards Rules.drops_lax (Rules.hooks_lax hquiet hinside) h.within.parent
          (by simpa using hparts.lax.2)
  unfold diffBranch
  cases chosen with
  | none => cases developed <;> exact hremove.ended fun _ _ _ => nofun
  | some phrase =>
      have hnew : Breaks R σ (developed.forM (teardown b c.parent) >>= fun _ =>
          render (c.before witness) phrase >>= fun r => pure (some r) >>= fun developed =>
            pure (.branch witness developed) : Pass ω Slot) := by
        refine .bind hremove fun _ σ₁ hrun => ?_
        obtain ⟨hworks, hafter⟩ := teardown_works hquiet hinside hpaired hparts hrun
        have hbefore : (c.before witness).Within σ₁.host :=
          hafter.within.before (Nat.lt_of_lt_of_le hwitness.1 hworks.later.count)
        exact ⟨hworks, (Breaks.of_guards (hdeeper.renders σ₁ _ phrase hbefore) hafter.safe).ended fun _ _ _ => nofun⟩
      cases developed with
      | none => exact hnew
      | some previous =>
          cases replace with
          | true => exact hnew
          | false =>
              have hprevious : Unspoilt R σ c previous.sentence.lexems previous.slots := by simpa using hparts
              exact (hdeeper.breaks σ e _ phrase previous (hpaired _ List.mem_cons_self)
                ⟨h.within.before hwitness.1, h.safe, hprevious.own, hprevious.intact⟩).ended fun _ _ _ => nofun

/-- The items of a list: they are diffed one by one, and what is left over is removed. -/
theorem diffEach_breaks {witness : NodeId} {items : List Rendered} (h : Unspoilt R σ c [old] [.each witness items]) :
    Breaks R σ (diffInstruction b render diff e c index lexem old .each (.each witness items)) := by
  have hwitness := h.own.nodes witness (by simp [Slot.mark, Mark.tops, Slot.ends])
  obtain ⟨hpaired, hitems⟩ := h.intact.parts (by simp)
  refine .evaluated (eachPhrases_guards lexem) h.safe Engine.eachPhrases_inWorld fun phrases w _ => ?_
  have hparts : Unspoilt R (σ.inWorld w) (c.before witness) (lexemsOf items) (slotsOf items) :=
    .inWorld ⟨h.within.before hwitness.1, h.safe, .of_all h.own.parts, hitems⟩ w
  refine .finished (diffItems_breaks hquiet hinside hdeeper e phrases items hpaired hparts)
    (diffItems_guards hdeeper.rendersLax hdeeper.diffsLax e phrases items hparts.within h.lax.2.parts) hparts.lax.1
    fun result σ₁ h₁ hresult => ?_
  exact .seq (teardowns_guards Rules.drops_lax (Rules.hooks_lax hquiet hinside) (h₁.count hparts.within.parent)
    hresult.2) fun _ _ => .pure fun _ _ => trivial

/-- A component that is shown again counts as not mounted if this fails. -/
theorem update_breaks {id : InstanceId} (hsafe : R.warden.Safe σ)
    (hintact : ∀ i r, σ.instances[id.index]? = some i → i.developed = some r → r.Paired ∧
      Intact (σ.onInstance id fun i => { i with developed := none }) i.parent r.sentence.lexems r.slots) :
    Breaks R σ (update b diff id) := by
  refine .read ?_
  split
  next => exact .pure
  next i hpresent =>
    split
    next => exact .fail _
    next previous hdeveloped =>
      have hown := hsafe.table.own id i (Nat.zero_le _) hpresent
      obtain ⟨hpaired, hprevious⟩ := hintact i previous hpresent hdeveloped
      have hforgotten : R.warden.Safe (σ.onInstance id fun i => { i with developed := none }) := by
        refine ⟨hsafe.host, ?_⟩
        rw [Stage.onInstance_instances]
        exact hsafe.table.modify id fun i _ hi => ⟨hi.site, hi.witness, nofun⟩
      refine .bind (m := Pass.editInstance id _) nofun fun _ σ₁ hrun => ?_
      obtain rfl := editInstance_eq_ok.mp hrun
      refine ⟨.refl _, .acted fun s w _ => ?_⟩
      have hunspoilt : Unspoilt R (σ.onInstance id fun i => { i with developed := none })
          ⟨i.parent, i.witness, some id⟩ previous.sentence.lexems previous.slots :=
        ⟨⟨hown.site, fun a ha => (hown.witness a ha).1⟩, hforgotten, hown.output previous hdeveloped, hprevious⟩
      exact (hdeeper.breaks _ i.engine _ _ previous hpaired (hunspoilt.inWorld w)).ended fun _ _ _ => nofun

theorem diffComponent_breaks {id : InstanceId} (h : Unspoilt R σ c [old] [.component id]) :
    Breaks R σ (diffComponent b diff lexem old id) := by
  have hrest : Breaks R σ (if (lexem.arg 1).same (old.arg 1) then pure (.component id) else do
      Pass.act (b.lifecycle id (.setProps (lexem.arg 1)))
      update b diff id
      pure (.component id) : Pass ω Slot) := by
    split
    · exact .pure
    · refine .acted fun _ w _ => (update_breaks hquiet hinside hdeeper (h.inWorld w).safe ?_).map
      intro i r hpresent hdeveloped
      obtain ⟨hparent, hpaired, hintact⟩ := (h.inWorld w).intact.output hpresent hdeveloped
      exact ⟨hpaired, hparent ▸ hintact⟩
  refine .check fun factory _ => .read ?_
  cases σ.instances[id.index]? with
  | none => exact hrest
  | some i =>
      dsimp only
      split
      · exact .bind (.fail _) fun _ _ hrun => (fail_eq_ok.mp hrun).elim
      · exact hrest

theorem diffInstruction_breaks (index : Nat) (i : Instruction) {slot : Slot} (h : Unspoilt R σ c [old] [slot]) :
    Breaks R σ (diffInstruction b render diff e c index lexem old i slot) := by
  have hincongruent : Breaks R σ (Pass.ofExcept (lexem.incongruent old index) : Pass ω Slot) := .fail _
  cases i with
  | tag =>
      cases slot with
      | element n kids => exact diffTag_breaks hquiet hinside hdeeper e lexem old h
      | _ => exact hincongruent
  | ifElse =>
      cases slot with
      | branch w developed =>
          exact .evaluated (chosenPhrase_guards lexem) h.safe chosenPhrase_inWorld fun chosen w _ =>
            diffBranch_breaks hquiet hinside hdeeper e old _ _ (h.inWorld w)
      | _ => exact hincongruent
  | switchUse =>
      cases slot with
      | branch w developed =>
          unfold diffInstruction
          dsimp only
          split
          · exact .evaluated (switchedPhrase_guards e lexem) h.safe switchedPhrase_inWorld fun chosen w _ =>
              diffBranch_breaks hquiet hinside hdeeper e old _ _ (h.inWorld w)
          · exact .pure
      | _ => exact hincongruent
  | each =>
      cases slot with
      | each w items => exact diffEach_breaks hquiet hinside hdeeper e lexem old h
      | _ => exact hincongruent
  | html =>
      cases slot with
      | raw w nodes =>
          unfold diffInstruction
          dsimp only
          split
          · exact .pure
          · exact .sure (diffRaw_guards Rules.drops_lax h.within h.lax.2 _) h.lax.1
      | _ => exact hincongruent
  | component =>
      cases slot with
      | component id => exact diffComponent_breaks hquiet hinside hdeeper lexem old h
      | _ => exact hincongruent
  | attr | data | style | prop | cssClass | classes | id | execute | ref | text | on | onDom =>
      exact .of_guards (diffPlain_guards (Rules.hooks hquiet hinside) e lexem old h.within index _ rfl h.own) h.safe

theorem diffLexem_breaks (index : Nat) {slot : Slot} (h : Unspoilt R σ c [old] [slot]) :
    Breaks R σ (diffLexem b render diff e c index lexem old slot) := by
  unfold diffLexem
  split
  · exact .pure
  · split
    · exact diffInstruction_breaks hquiet hinside hdeeper e lexem old index _ h
    · split
      · next previous =>
        split
        · refine .evaluated (develop_guards e lexem) h.safe develop_inWorld fun s w _ => ?_
          obtain ⟨hpaired, hintact⟩ := h.intact.parts (by simp)
          have hprevious : Unspoilt R σ c previous.sentence.lexems previous.slots :=
            ⟨h.within, h.safe, h.own.parts previous (by simp [Slot.parts]),
              by simpa [Slot.parts, Slot.inside] using hintact⟩
          exact (hdeeper.breaks _ e c _ previous (hpaired previous (by simp [Slot.parts])) (hprevious.inWorld w)).map
        · exact .pure
      · exact .fail _

/-- The words that have been diffed have evolved, and those that are still to come are as they were. -/
theorem diffLexems_breaks (lexems : List Lexem) : ∀ {σ : Stage ω} (index : Nat) (olds : List Lexem) (slots : List Slot),
    Unspoilt R σ c olds slots → Breaks R σ (diffLexems b render diff e c index lexems olds slots) := by
  induction lexems with
  | nil =>
      intro σ index olds slots _
      simp only [diffLexems]
      exact .pure
  | cons lexem lexems ih =>
      intro σ index olds slots h
      cases olds with
      | nil =>
          simp only [diffLexems]
          exact .pure
      | cons old olds =>
      cases slots with
      | nil =>
          simp only [diffLexems]
          exact .pure
      | cons slot slots =>
          have hboth : Unspoilt R σ c ([old] ++ olds) ([slot] ++ slots) := h
          have hfirst := hboth.left rfl
          have hrest : lexem.isCongruent old = true →
              Breaks R σ (diffLexem b render diff e c index lexem old slot >>= fun slot =>
                diffLexems b render diff e c (index + 1) lexems olds slots >>= fun slots => pure (slot :: slots)) := by
            intro hcongruent
            refine .bind (diffLexem_breaks hquiet hinside hdeeper e lexem old index hfirst) fun slot' σ₁ hrun => ?_
            have hevolves : Evolves .loose b c.parent (fun _ => True) σ [old] [slot] σ₁ [lexem] [slot'] :=
              DiffStep.evolves (by rintro _ ⟨⟩) hcongruent hdeeper.renderEvolves hdeeper.renderRenews
                hdeeper.diffEvolves hdeeper.diffRenews (diffLexem_step hrun)
            have hguards := diffLexem_guards Rules.drops_lax (Rules.hooks_lax hquiet hinside) hdeeper.rendersLax
              hdeeper.diffsLax e lexem old h.within index hfirst.lax.2
            obtain ⟨hworks, hafter⟩ := hboth.evolve hquiet hinside rfl hguards hrun hevolves
            exact ⟨hworks, (ih _ olds slots hafter).map⟩
          unfold diffLexems
          dsimp only
          split
          next hcongruent => exact hrest hcongruent
          next => exact .bind (.fail _) fun _ _ hrun => (fail_eq_ok.mp hrun).elim

theorem diffPhrase_breaks (phrase : Phrase) (h : Unspoilt R σ c previous.sentence.lexems previous.slots) :
    Breaks R σ (diffPhrase b render diff e c phrase previous) := by
  unfold diffPhrase
  split
  · exact .pure
  · dsimp only
    split
    · exact .bind (.fail _) fun _ _ hrun => (fail_eq_ok.mp hrun).elim
    · exact (diffLexems_breaks hquiet hinside hdeeper e _ 0 _ _ h).map

end Diffing

/-- What is known of the passes that go less deep. -/
theorem deeper (hquiet : b.Quiet) (hinside : ¬ R.inside) {depth : Nat} (e : Engine)
    (hbreaks : DiffBreaks R (diffWithin b depth)) : Deeper R b (renderWithin b depth e) (diffWithin b depth) where
  renders := renderWithin_guards (Rules.hooks hquiet hinside) depth e
  rendersLax := renderWithin_guards (Rules.hooks_lax hquiet hinside) depth e
  diffsLax := diffWithin_guards Rules.drops_lax (Rules.hooks_lax hquiet hinside) depth
  renderEvolves := renderWithin_evolves nofun
  renderRenews := renderWithin_renewal _
  diffEvolves := diffWithin_evolves
  diffRenews := diffWithin_renewal _
  breaks := hbreaks

/-- A diff that comes to an error has kept to the rules, and taken nothing away that was not where it was put. -/
theorem diffWithin_breaks (hquiet : b.Quiet) (hinside : ¬ R.inside) (depth : Nat) :
    DiffBreaks R (diffWithin b depth) := by
  induction depth with
  | zero => exact fun _ _ _ _ _ _ _ => nofun
  | succ depth ih =>
      intro σ e c phrase previous _ h
      exact diffPhrase_breaks hquiet hinside (deeper hquiet hinside e ih) e phrase h

end Engine

end Parlance
