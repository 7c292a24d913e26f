import Parlance.Engine.Output
import Parlance.Proofs.Engine.Purity
import Parlance.Proofs.Host.Mirroring

/-! Renderings that are played again elsewhere. What a rendering does depends on the world and on its sentence; of a
host it asks for nothing but names of new nodes and listeners. So in the same world the same sentence can be rendered
under the node of another host as well, and it leaves the same there. -/

namespace Parlance

open Pass

variable {ω : Type} {b : Behaviour ω}

/-- Hooks that do the same to hosts that mirror each other. -/
def Behaviour.Even (b : Behaviour ω) : Prop :=
  ∀ {M : Mirror} {hook : Identity} {n : NodeId} {args : List Arg} {h h₁ h' : Host} {w w₁ : ω},
    M.Reflects h h' → M.Open h n → b.hookRender hook n args h w = .ok h₁ w₁ →
      h.count ≤ h₁.count ∧ ∃ h₁', b.hookRender hook (M.node n) args h' w = .ok h₁' w₁ ∧ M.Reflects h₁ h₁'

namespace Engine

variable {e : Engine} {lexem : Lexem} {σ τ : Stage ω} {w : ω}

theorem inWorld_injective {w w' : ω} (h : σ.inWorld w = σ.inWorld w') : w = w' := congrArg Stage.world h

/-- A compound develops in the same way wherever it stands. -/
theorem develop_elsewhere {s : Sentence} (hworld : τ.world = σ.world) (h : e.develop b lexem σ = .ok s (σ.inWorld w)) :
    e.develop b lexem τ = .ok s (τ.inWorld w) := by
  obtain ⟨w', hdevelops, heq⟩ := develop_ok h
  obtain rfl := inWorld_injective heq
  rw [← hworld] at hdevelops
  exact hdevelops.ok

theorem choice_elsewhere {i : Instruction} {label : String} {m : Pass ω (Option Phrase)} {chosen : Option Phrase}
    (hworld : τ.world = σ.world) (hchoice : e.choice b lexem i = some (label, m))
    (h : m σ = .ok chosen (σ.inWorld w)) : m τ = .ok chosen (τ.inWorld w) := by
  cases i <;> cases hchoice
  · obtain ⟨w', hchooses, heq⟩ := chosenPhrase_ok h
    obtain rfl := inWorld_injective heq
    rw [← hworld] at hchooses
    exact hchooses.ok
  · obtain ⟨w', hswitches, heq⟩ := switchedPhrase_ok h
    obtain rfl := inWorld_injective heq
    rw [← hworld] at hswitches
    exact hswitches.ok

theorem eachPhrases_elsewhere {phrases : List Phrase} (hworld : τ.world = σ.world)
    (h : eachPhrases b lexem σ = .ok phrases (σ.inWorld w)) : eachPhrases b lexem τ = .ok phrases (τ.inWorld w) := by
  obtain ⟨w', hlists, heq⟩ := eachPhrases_ok h
  obtain rfl := inWorld_injective heq
  rw [← hworld] at hlists
  exact hlists.ok

end Engine

namespace Host

variable {h : Host} {n : NodeId}

theorem content_write (hn : n.index < h.count) (w : Write) : (h.write n w).content n = (h.content n).enter w := by
  have hmodify : ∀ mutation, ((h.modifyContent n (·.enter w)).record mutation).content n = (h.content n).enter w :=
    fun mutation => (content_modifyContent h (·.enter w) hn n).trans (if_pos rfl)
  cases w <;> exact hmodify _

theorem content_writeAll (hn : n.index < h.count) (ws : List Write) :
    (h.writeAll n ws).content n = ws.foldl Content.enter (h.content n) := by
  induction ws generalizing h with
  | nil => rfl
  | cons w ws ih =>
      have hcount := (write_touches hn w).count
      rw [writeAll, List.foldl_cons, List.foldl_cons, ← content_write hn]
      exact ih (hcount.symm ▸ hn)

end Host

namespace Mirror

variable (M : Mirror)

/-- A stage on whose host the same has been done, with as many components, in the same world. -/
structure Stages (σ τ : Stage ω) : Prop where
  host : M.Reflects σ.host τ.host
  instances : τ.instances.size = σ.instances.size
  world : τ.world = σ.world

variable {M} {σ σ₁ σ' τ : Stage ω} {p : NodeId} {id : Option InstanceId}

namespace Stages

theorem inWorld (h : M.Stages σ τ) (w : ω) : M.Stages (σ.inWorld w) (τ.inWorld w) := ⟨h.host, h.instances, rfl⟩

theorem onHost {f f' : Host → Host} (h : M.Stages σ τ) (hreflects : M.Reflects (f σ.host) (f' τ.host)) :
    M.Stages (σ.onHost f) (τ.onHost f') := ⟨hreflects, h.instances, h.world⟩

theorem onInstance (h : M.Stages σ τ) (i i' : InstanceId) (f f' : Instance → Instance) :
    M.Stages (σ.onInstance i f) (τ.onInstance i' f') :=
  ⟨h.host, by simp [h.instances], h.world⟩

/-- A new node is put at the end of a node. -/
theorem put (h : M.Stages σ τ) (hp : M.Open σ.host p) (kind : NodeKind) (m : NodeId → Mutation)
    (hm : ∀ n, (m n).made? = some n) :
    σ.host.count < (σ.host.putNode kind p none (m σ.host.next)).count ∧
      M.Stages (σ.onHost fun h => h.putNode kind p none (m h.next))
        (τ.onHost fun h => h.putNode kind (M.node p) none (m h.next)) := by
  have hadds : Host.Adds p none σ.host (σ.host.putNode kind p none (m σ.host.next)) :=
    Host.putNode_adds kind (hm σ.host.next) (h.host.lt hp)
  have hadds' : Host.Adds (M.node p) none τ.host (τ.host.putNode kind (M.node p) none (m τ.host.next)) :=
    Host.putNode_adds kind (hm τ.host.next) (h.host.node_lt hp)
  have hcontent := (Host.putNode_makes σ.host p kind none (m σ.host.next)).content σ.host.next
  have hcontent' := (Host.putNode_makes τ.host (M.node p) kind none (m τ.host.next)).content τ.host.next
  rw [if_pos rfl] at hcontent hcontent'
  have hreflects := h.host.adds hp hadds hadds' (hcontent'.trans hcontent.symm)
  exact ⟨Nat.lt_of_succ_le (Nat.le_of_eq hadds.puts.count.symm), h.onHost hreflects⟩

theorem putMarker (h : M.Stages σ τ) (hp : M.Open σ.host p) (id : Option InstanceId) (label : String) :
    σ.host.count < (σ.host.putMarker ⟨p, none, id⟩ label).count ∧
      M.Stages (σ.onHost (·.putMarker ⟨p, none, id⟩ label)) (τ.onHost (·.putMarker ⟨M.node p, none, id⟩ label)) :=
  h.put hp (.marker label) (.createMarker · label) fun _ => rfl

theorem insertRaw (h : M.Stages σ τ) (hp : M.Open σ.host p) (markup : String) :
    σ.host.count < (σ.host.insertRaw p markup none).2.count ∧
      M.Stages (σ.onHost fun h => (h.insertRaw p markup none).2)
        (τ.onHost fun h => (h.insertRaw (M.node p) markup none).2) := by
  have hadds : Host.Adds p none σ.host (σ.host.insertRaw p markup none).2 :=
    Host.insertRaw_adds markup (h.host.lt hp)
  have hadds' : Host.Adds (M.node p) none τ.host (τ.host.insertRaw (M.node p) markup none).2 :=
    Host.insertRaw_adds markup (h.host.node_lt hp)
  have hcontent := (Host.insertRaw_makes σ.host p markup none).content σ.host.next
  have hcontent' := (Host.insertRaw_makes τ.host (M.node p) markup none).content τ.host.next
  rw [if_pos rfl] at hcontent hcontent'
  have hreflects := h.host.adds hp hadds hadds' (hcontent'.trans hcontent.symm)
  exact ⟨Nat.lt_of_succ_le (Nat.le_of_eq hadds.puts.count.symm), h.onHost hreflects⟩

theorem writeAll (h : M.Stages σ τ) (hp : M.Open σ.host p) (ws : List Write) :
    M.Stages (σ.onHost (·.writeAll p ws)) (τ.onHost (·.writeAll (M.node p) ws)) := by
  refine h.onHost (h.host.inscribes hp (.writeAll σ.host p ws) (.writeAll τ.host (M.node p) ws) ?_)
  rw [Host.content_writeAll (h.host.lt hp), Host.content_writeAll (h.host.node_lt hp), (h.host.copies p hp).content]

/-- A component that is rendered names a node, and nothing else happens. -/
theorem nameNode {lexem : Lexem} (h : M.Stages σ τ) (hname : Engine.nameNode ⟨p, none, id⟩ lexem σ = .ok () σ') :
    σ.host.count ≤ σ'.host.count ∧
      ∃ τ', Engine.nameNode ⟨M.node p, none, id⟩ lexem τ = .ok () τ' ∧ M.Stages σ' τ' := by
  cases id with
  | none =>
      obtain ⟨-, rfl⟩ := pure_eq_ok.mp hname
      exact ⟨Nat.le_refl _, τ, rfl, h⟩
  | some i =>
      simp only [Engine.nameNode, bind_eq_ok, ofExcept_eq_ok, editInstance_eq_ok] at hname ⊢
      obtain ⟨name, _, ⟨hread, rfl⟩, rfl⟩ := hname
      exact ⟨Nat.le_refl _, _, ⟨name, τ, ⟨hread, rfl⟩, rfl⟩, h.onInstance i i _ _⟩

end Stages

variable (M) in
/-- A pass at the end of nodes that can be played again on every stage that mirrors its own. -/
def Replays {α : Type} (inner : Cursor → Phrase → Pass ω α) : Prop :=
  ∀ {p : NodeId} {id : Option InstanceId} {phrase : Phrase} {σ σ' τ : Stage ω} {r : α}, M.Stages σ τ →
    M.Open σ.host p → inner ⟨p, none, id⟩ phrase σ = .ok r σ' →
      σ.host.count ≤ σ'.host.count ∧ ∃ r' τ', inner ⟨M.node p, none, id⟩ phrase τ = .ok r' τ' ∧ M.Stages σ' τ'

section Steps

variable {inner : Cursor → Phrase → Pass ω Rendered} {e : Engine} {lexem : Lexem} {slot : Slot}

/-- What can be played again can be played again for one phrase after the other. -/
theorem Replays.chain {phrases : List Phrase} {rs : List Rendered} (hinner : M.Replays inner) (h : M.Stages σ τ)
    (hp : M.Open σ.host p) (hchain : Chain (inner ⟨p, none, id⟩) phrases σ rs σ') :
    σ.host.count ≤ σ'.host.count ∧
      ∃ rs' τ', Chain (inner ⟨M.node p, none, id⟩) phrases τ rs' τ' ∧ M.Stages σ' τ' := by
  induction phrases generalizing σ τ rs with
  | nil =>
      cases hchain
      exact ⟨Nat.le_refl _, [], τ, .nil, h⟩
  | cons phrase phrases ih =>
      cases hchain with
      | cons head tail =>
      obtain ⟨hcount, r', τ₁, hhead, hstages⟩ := hinner h hp head
      obtain ⟨hcount', rs', τ', htail, hlast⟩ := ih hstages (hp.mono hcount) tail
      exact ⟨Nat.le_trans hcount hcount', r' :: rs', τ', .cons hhead htail, hlast⟩

theorem chain_option {f : Phrase → Pass ω Rendered} {chosen : Option Phrase} {rs : List Rendered}
    (h : Chain f chosen.toList σ rs σ') : ∃ developed, rs = Option.toList developed := by
  cases chosen with
  | none =>
      cases h
      exact ⟨none, rfl⟩
  | some phrase =>
      cases h with
      | cons _ tail =>
      cases tail
      exact ⟨some _, rfl⟩

/-- Each step of a rendering can be taken again. -/
theorem Replays.step (heven : b.Even) (hinner : M.Replays inner) (h : M.Stages σ τ) (hp : M.Open σ.host p)
    (hstep : Engine.RenderStep b inner e ⟨p, none, id⟩ lexem σ slot σ') :
    σ.host.count ≤ σ'.host.count ∧
      ∃ slot' τ', Engine.RenderStep b inner e ⟨M.node p, none, id⟩ lexem τ slot' τ' ∧ M.Stages σ' τ' := by
  cases hstep with
  | skipped hspace => exact ⟨Nat.le_refl _, _, τ, .skipped hspace, h⟩
  | @compound s w r σ₁ hspace hword hdevelop hrender =>
      obtain ⟨hcount, r', τ', hrender', hstages⟩ := hinner (h.inWorld w) hp hrender
      exact ⟨hcount, _, τ', .compound hspace hword (Engine.develop_elsewhere h.world hdevelop) hrender', hstages⟩
  | «attribute» hspace hword hwrites =>
      exact ⟨Nat.le_of_eq (Host.Inscribes.writeAll σ.host p _).tree.count.symm, _, _, .attribute hspace hword hwrites,
        h.writeAll hp _⟩
  | text hspace hword =>
      have hmade : ∀ n, (Mutation.createText n (lexem.arg 0).toText).made? = some n := fun _ => rfl
      obtain ⟨hcount, hstages⟩ := h.put hp (.text (lexem.arg 0).toText) _ hmade
      exact ⟨Nat.le_of_lt hcount, _, _, .text hspace hword, hstages⟩
  | @element tag phrases kids σ₁ hspace hword htag hphrases hchain =>
      obtain ⟨hcount, hstages⟩ := h.put hp (.element tag) (.createElement · tag) fun _ => rfl
      have hnew : M.Open (σ.host.putNode (.element tag) p none (.createElement σ.host.next tag)) σ.host.next :=
        .inr ⟨h.host.count_le.1, hcount⟩
      obtain ⟨hcount', kids', τ', hchain', hlast⟩ := hinner.chain hstages hnew hchain
      rw [h.host.node_next] at hchain'
      exact ⟨Nat.le_trans (Nat.le_of_lt hcount) hcount', _, τ', .element hspace hword htag hphrases hchain', hlast⟩
  | @listener event listener hspace hword hevent hlistener =>
      exact ⟨Nat.le_of_eq (Host.SameTree.addListener σ.host p event listener).count.symm, _, _,
        .listener hspace hword hevent hlistener, h.onHost (h.host.addListener hp event listener)⟩
  | @branch i label m chosen w developed σ₁ hspace hword hchoice hchosen hchain =>
      obtain ⟨hcount, rs', τ₁, hchain', hstages⟩ := hinner.chain (h.inWorld w) hp hchain
      obtain ⟨developed', rfl⟩ := chain_option hchain'
      obtain ⟨hlt, hlast⟩ := hstages.putMarker (hp.mono hcount) id (e.markerText label)
      exact ⟨Nat.le_trans hcount (Nat.le_of_lt hlt), _, _,
        .branch hspace hword hchoice (Engine.choice_elsewhere h.world hchoice hchosen) hchain', hlast⟩
  | @each phrases w items σ₁ hspace hword hphrases hchain =>
      obtain ⟨hcount, items', τ₁, hchain', hstages⟩ := hinner.chain (h.inWorld w) hp hchain
      obtain ⟨hlt, hlast⟩ := hstages.putMarker (hp.mono hcount) id (e.markerText "each")
      exact ⟨Nat.le_trans hcount (Nat.le_of_lt hlt), _, _,
        .each hspace hword (Engine.eachPhrases_elsewhere h.world hphrases) hchain', hlast⟩
  | raw hspace hword =>
      obtain ⟨hcount, hstages⟩ := h.insertRaw hp (lexem.arg 0).toText
      obtain ⟨hlt, hlast⟩ := hstages.putMarker (hp.mono (Nat.le_of_lt hcount)) id (e.markerText "html")
      exact ⟨Nat.le_of_lt (Nat.lt_trans hcount hlt), _, _, .raw hspace hword, hlast⟩
  | @hook hook h₁ w hspace hword hhook hcall =>
      obtain ⟨hcount, h₁', hcall', hreflects⟩ := heven h.host hp hcall
      rw [← h.world] at hcall'
      exact ⟨hcount, _, _, .hook hspace hword hhook hcall', (h.onHost hreflects).inWorld w⟩
  | @callback callback w hspace hword hcallback hcall =>
      rw [← h.world] at hcall
      exact ⟨Nat.le_refl _, _, _, .callback hspace hword hcallback hcall, h.inWorld w⟩
  | name hspace hword hname =>
      obtain ⟨hcount, τ', hname', hstages⟩ := h.nameNode hname
      exact ⟨hcount, _, τ', .name hspace hword hname', hstages⟩
  | @component factory w₁ w₂ w₃ w₄ s r σ₁ hspace hword hfactory hcreate hwill hview hrender hdid =>
      have hmounted : M.Stages ⟨σ.host, σ.instances.push ⟨factory, e, p, none, none, []⟩, w₃⟩
          ⟨τ.host, τ.instances.push ⟨factory, e, M.node p, none, none, []⟩, w₃⟩ := ⟨h.host, by simp [h.instances], rfl⟩
      rw [← h.instances] at hcreate hwill hview hrender hdid
      rw [← h.world] at hcreate
      obtain ⟨hcount, r', τ₁, hrender', hstages⟩ := hinner hmounted hp hrender
      obtain ⟨hlt, hlast⟩ := hstages.putMarker (hp.mono hcount) id (e.markerText "component")
      rw [← hstages.world] at hdid
      exact ⟨Nat.le_trans hcount (Nat.le_of_lt hlt), _, _,
        .component hspace hword hfactory hcreate hwill hview hrender' hdid,
        (hlast.onInstance ⟨σ.instances.size⟩ ⟨τ.instances.size⟩ _ _).inWorld w₄⟩

end Steps

variable (M) in
/-- Every rendering can be played again. -/
theorem renderWithin_replays (heven : b.Even) (depth : Nat) (e : Engine) :
    M.Replays (Engine.renderWithin b depth e) := by
  induction depth with
  | zero => exact fun _ _ hpass => by cases hpass
  | succ depth ih =>
      intro p id phrase σ σ' τ r hstages hp hpass
      obtain ⟨slots, rfl, hchain⟩ := Engine.renderPhrase_ok hpass
      clear hpass
      have hlexems : ∀ {lexems : List Lexem} {slots : List Slot} {σ σ' τ : Stage ω}, M.Stages σ τ → M.Open σ.host p →
          Chain (Engine.renderLexem b (Engine.renderWithin b depth e) e ⟨p, none, id⟩) lexems σ slots σ' →
            σ.host.count ≤ σ'.host.count ∧ ∃ slots' τ',
              Chain (Engine.renderLexem b (Engine.renderWithin b depth e) e ⟨M.node p, none, id⟩) lexems τ slots' τ' ∧
                M.Stages σ' τ' := by
        intro lexems
        induction lexems with
        | nil =>
            intro slots σ σ' τ h _ hchain
            cases hchain
            exact ⟨Nat.le_refl _, [], τ, .nil, h⟩
        | cons lexem lexems ihlexems =>
            intro slots σ σ' τ h hp hchain
            cases hchain with
            | cons head tail =>
            obtain ⟨hcount, slot', τ₁, hstep, hfirst⟩ := ih.step heven h hp (Engine.renderLexem_step head)
            obtain ⟨hcount', slots', τ', hrest, hlast⟩ := ihlexems hfirst (hp.mono hcount) tail
            exact ⟨Nat.le_trans hcount hcount', slot' :: slots', τ', .cons hstep.ok hrest, hlast⟩
      obtain ⟨hcount, slots', τ', hchain', hlast⟩ := hlexems hstages hp hchain
      exact ⟨hcount, ⟨phrase.identity, phrase.sentence, slots'⟩, τ',
        bind_eq_ok.mpr ⟨slots', τ', mapM_eq_ok.mpr hchain', rfl⟩, hlast⟩

end Mirror

end Parlance
