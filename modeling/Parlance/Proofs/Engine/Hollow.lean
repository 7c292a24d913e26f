import Parlance.Proofs.Engine.Clearance
import Parlance.Proofs.Lexicon.Agreement

/-! Components that have lost their output. A removal does with such a component what it would do if its output were
there and held nothing. So it goes on in the same way on a table in which the lost output has been replaced by a hollow
one, and all that is known of removals can be said of it. -/

namespace Parlance

open Pass

/-- An output of nothing. -/
def Rendered.hollow : Rendered := ⟨none, Sentence.empty (Lexicon.new "" none) .firstLevel, []⟩

namespace Instance

/-- The same component without its output. -/
def lost (i : Instance) : Instance := { i with developed := none }

/-- The same component with an output of nothing. -/
def hollow (i : Instance) : Instance := { i with developed := some .hollow }

/-- The same component, or the same with a hollow output in the place of one that is lost. -/
inductive Refills (i : Instance) : Instance → Prop
  | same : Refills i i
  | hollow (hlost : i.developed = none) : Refills i i.hollow

end Instance

/-- Two tables that differ in one component at most, which may have a hollow output in the place of a lost one. -/
structure Refills (id : InstanceId) (t t' : Array Instance) : Prop where
  others : ∀ n, n ≠ id.index → t'[n]? = t[n]?
  own : Option.Rel Instance.Refills t[id.index]? t'[id.index]?

namespace Refills

variable {t t' : Array Instance} {id : InstanceId}

/-- A component that has lost its output could as well have a hollow one. -/
theorem lost (t : Array Instance) (id : InstanceId) :
    Refills id (t.modify id.index Instance.lost) (t.modify id.index Instance.hollow) := by
  refine ⟨fun n hn => ?_, ?_⟩
  · rw [Array.getElem?_modify, Array.getElem?_modify, if_neg hn.symm, if_neg hn.symm]
  · rw [Array.getElem?_modify, Array.getElem?_modify, if_pos rfl, if_pos rfl]
    cases t[id.index]? with
    | none => exact .none
    | some i => exact .some (.hollow (i := i.lost) rfl)

theorem rel (h : Refills id t t') (n : Nat) : Option.Rel Instance.Refills t[n]? t'[n]? := by
  by_cases hn : n = id.index
  · rw [hn]
    exact h.own
  · rw [h.others n hn]
    cases t[n]? with
    | none => exact .none
    | some i => exact .some .same

theorem size_eq (h : Refills id t t') : t'.size = t.size := by
  have hnone : ∀ n, t[n]? = none ↔ t'[n]? = none := fun n => by
    have hrel := h.rel n
    generalize t[n]? = o, t'[n]? = o' at hrel
    cases hrel <;> simp
  simp only [Array.getElem?_eq_none_iff] at hnone
  exact Nat.le_antisymm ((hnone t.size).mp (Nat.le_refl _)) ((hnone t'.size).mpr (Nat.le_refl _))

/-- A change that leaves nothing of an output brings the tables no further apart. -/
theorem modify (h : Refills id t t') (index : Nat) {f : Instance → Instance} (hf : ∀ i, f i.hollow = f i) :
    Refills id (t.modify index f) (t'.modify index f) := by
  have hmodify : ∀ {o o' : Option Instance}, Option.Rel Instance.Refills o o' →
      Option.Rel Instance.Refills (o.map f) (o'.map f) := by
    intro o o' hrel
    cases hrel with
    | none => exact .none
    | some hi =>
        cases hi with
        | same => exact .some .same
        | hollow =>
            rw [Option.map_some, Option.map_some, hf]
            exact .some .same
  refine ⟨fun n hn => ?_, ?_⟩
  · rw [Array.getElem?_modify, Array.getElem?_modify, h.others n hn]
  · rw [Array.getElem?_modify, Array.getElem?_modify]
    split
    · exact hmodify h.own
    · exact h.own

/-- What a component has on the host is detached in the same way. -/
theorem detach (h : Refills id t t') (depth : Nat) : detachComponent t' depth = detachComponent t depth := by
  induction depth with
  | zero => rfl
  | succ depth ih =>
      funext child host
      have hrel := h.rel child.index
      unfold detachComponent
      rw [ih]
      generalize t[child.index]? = o, t'[child.index]? = o' at hrel
      cases hrel with
      | none => rfl
      | some hi =>
          cases hi with
          | same => rfl
          | hollow hlost => simp [Instance.hollow, hlost, Rendered.hollow, Sentence.empty, detachWith_eq, detachSlots]

end Refills

variable {ω α β : Type} {b : Behaviour ω}

/-- The same stage, but for the tables. -/
structure Stage.Refills (id : InstanceId) (σ σ' : Stage ω) : Prop where
  host : σ'.host = σ.host
  world : σ'.world = σ.world
  table : Parlance.Refills id σ.instances σ'.instances

/-- Two passes that go on in the same way on stages that are the same but for the tables. -/
abbrev Likewise (id : InstanceId) (Q : α → β → Prop) (m : Pass ω α) (m' : Pass ω β) : Prop :=
  Agrees True (fun _ => False) (fun _ => False) (Stage.Refills id) Q m m'

namespace Likewise

variable {id : InstanceId}

theorem act (action : Act ω α) : Likewise id Eq (act action) (act action) := by
  intro σ σ' hσ
  unfold Pass.act
  rw [hσ.world]
  cases action σ.world with
  | ok a w => exact .ok rfl ⟨hσ.host, rfl, hσ.table⟩
  | error err w => exact .error trivial ⟨hσ.host, rfl, hσ.table⟩

theorem actOnHost (action : Host → Act ω Host) : Likewise id Eq (actOnHost action) (actOnHost action) := by
  intro σ σ' hσ
  unfold Pass.actOnHost
  rw [hσ.world, hσ.host]
  cases action σ.host σ.world with
  | ok h w => exact .ok rfl ⟨rfl, rfl, hσ.table⟩
  | error err w => exact .error trivial ⟨rfl, rfl, hσ.table⟩

theorem instances : Likewise id (Refills id) (instances : Pass ω (Array Instance)) instances := fun _ _ hσ =>
  .ok hσ.table hσ

theorem edit (f : Host → Host) : Likewise id Eq (edit f : Pass ω Unit) (edit f) := fun _ _ hσ =>
  .ok rfl ⟨congrArg f hσ.host, hσ.world, hσ.table⟩

theorem forM {f : β → Pass ω PUnit} (as : List β) (h : ∀ a, Likewise id Eq (f a) (f a)) :
    Likewise id Eq (as.forM f) (as.forM f) := by
  induction as with
  | nil => exact .pure rfl
  | cons a as ih => exact (h a).bind fun _ _ _ => ih

section Seeking

variable {within : InstanceId → Pass ω (List InstanceId)}

mutual

theorem seekSlot (hwithin : ∀ child, Likewise id Eq (within child) (within child)) (lexem : Lexem) :
    ∀ slot : Slot, Likewise id Eq (slot.seek b within lexem) (slot.seek b within lexem)
  | .element _ kids => seekAll hwithin kids
  | .branch _ none => .pure rfl
  | .branch _ (some developed) => seekWith hwithin developed
  | .each _ items => seekAll hwithin items
  | .hook node => by
      unfold Slot.seek
      cases lexem.hookArg with
      | error err => exact .pure rfl
      | ok hook => exact .bind (actOnHost _) fun _ _ _ => .pure rfl
  | .component child => hwithin child
  | .compound developed => seekWith hwithin developed
  | .attribute | .text _ | .listener _ | .raw _ _ | .skipped | .effect => .pure rfl

theorem seekWith (hwithin : ∀ child, Likewise id Eq (within child) (within child)) :
    ∀ r : Rendered, Likewise id Eq (r.seekWith b within) (r.seekWith b within)
  | ⟨_, sentence, slots⟩ => seekSlots hwithin sentence.lexems slots

theorem seekSlots (hwithin : ∀ child, Likewise id Eq (within child) (within child)) (lexems : List Lexem) :
    ∀ slots : List Slot,
      Likewise id Eq (Parlance.seekSlots b within lexems slots) (Parlance.seekSlots b within lexems slots)
  | [] => by
      cases lexems <;> exact .pure rfl
  | slot :: slots => by
      cases lexems with
      | nil => exact .pure rfl
      | cons lexem lexems =>
          refine .bind (seekSlot hwithin lexem slot) fun found _ heq => ?_
          subst heq
          refine .bind (seekSlots hwithin lexems slots) fun rest _ heq => ?_
          subst heq
          exact .pure rfl

theorem seekAll (hwithin : ∀ child, Likewise id Eq (within child) (within child)) :
    ∀ rs : List Rendered, Likewise id Eq (Parlance.seekAll b within rs) (Parlance.seekAll b within rs)
  | [] => .pure rfl
  | r :: rs => by
      refine .bind (seekWith hwithin r) fun found _ heq => ?_
      subst heq
      refine .bind (seekAll hwithin rs) fun rest _ heq => ?_
      subst heq
      exact .pure rfl

end

end Seeking

/-- Nothing is found in a hollow output, as nothing is in one that is lost. -/
theorem seekComponent (depth : Nat) (child : InstanceId) :
    Likewise id Eq (Parlance.seekComponent b depth child) (Parlance.seekComponent b depth child) := by
  induction depth generalizing child with
  | zero => exact .pure rfl
  | succ depth ih =>
      refine .bind instances fun t t' hrefills => ?_
      have hrel := hrefills.rel child.index
      generalize t[child.index]? = o, t'[child.index]? = o' at hrel
      cases hrel with
      | none => exact .pure rfl
      | @some i _ hi =>
          cases hi with
          | same =>
              dsimp only
              cases i.developed with
              | none => exact .pure rfl
              | some r =>
                  refine .bind (seekWith ih r) fun found _ heq => ?_
                  subst heq
                  exact .pure rfl
          | hollow hlost =>
              dsimp only [Instance.hollow]
              rw [hlost]
              exact .pure rfl

theorem unmounting (found : List InstanceId) {detach detach' : Array Instance → Host → Host}
    (hdetach : ∀ t t', Refills id t t' → detach' t' = detach t) :
    Likewise id Eq (unmounting b found detach) (unmounting b found detach') := by
  refine .bind (forM found fun child => act _) fun _ _ _ => .bind instances fun t t' hrefills => ?_
  rw [hdetach t t' hrefills]
  refine .bind (edit _) fun _ _ _ => forM found fun child => .bind (act _) fun _ _ _ => ?_
  intro σ σ' hσ
  have htable := hσ.table.modify child.index (f := fun c => { c with developed := none, refs := [] }) fun _ => rfl
  exact .ok rfl ⟨hσ.host, hσ.world, htable⟩

/-- A removal goes on in the same way. -/
theorem teardown (parent : NodeId) (r : Rendered) :
    Likewise id Eq (teardown b parent r) (teardown b parent r) := by
  refine .bind instances fun t t' hrefills => ?_
  rw [hrefills.size_eq]
  refine .bind (seekWith (seekComponent t.size) r) fun found _ heq => ?_
  subst heq
  refine unmounting found fun t t' hrefills => ?_
  rw [hrefills.size_eq, hrefills.detach]

end Likewise

/-- What a removal does on a table with a lost output it does as well if the output is hollow. -/
theorem teardown_refilled {id : InstanceId} {parent : NodeId} {r : Rendered} {σ σ' τ : Stage ω}
    (hpass : teardown b parent r σ = .ok () τ) (hσ : σ.Refills id σ') :
    ∃ τ', teardown b parent r σ' = .ok () τ' ∧ τ.Refills id τ' := by
  have hends := Likewise.teardown (b := b) parent r σ σ' hσ
  rw [hpass] at hends
  generalize teardown b parent r σ' = result at hends
  cases hends with
  | ok hresult hstate => exact ⟨_, rfl, hstate⟩
  | stopped' hstop => exact hstop.elim

end Parlance
