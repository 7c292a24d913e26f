import Mathlib.Data.Fintype.Card
import Parlance.Host.Query
import Parlance.Proofs.Host.Links

/-! Attached nodes. A node is attached if the root is above it, however far: the way up from a node never comes to one
node twice before it comes to the root, so it has no more steps than the host has nodes. -/

namespace Parlance.Host

/-- The node that is so many steps above a node. -/
def above (h : Host) : Nat → NodeId → Option NodeId
  | 0, n => some n
  | steps + 1, n => (h.parent n).bind (h.above steps)

variable {h : Host} {n p : NodeId} {steps : Nat}

theorem above_succ (steps : Nat) (n : NodeId) : h.above (steps + 1) n = (h.parent n).bind (h.above steps) := rfl

theorem reachesRoot_succ (steps : Nat) (n : NodeId) : h.reachesRoot (steps + 1) n =
    (decide (n = root) || match h.parent n with
      | some parent => h.reachesRoot steps parent
      | none => false) := rfl

theorem above_add (i j : Nat) (n : NodeId) : h.above (i + j) n = (h.above i n).bind (h.above j) := by
  induction i generalizing n with
  | zero => rw [Nat.zero_add]; rfl
  | succ i ih => rw [Nat.add_right_comm, above_succ, above_succ, Option.bind_assoc, funext ih]

theorem reachesRoot_iff : h.reachesRoot steps n = true ↔ ∃ j ≤ steps, h.above j n = some root := by
  induction steps generalizing n with
  | zero => simp [reachesRoot, above]
  | succ steps ih =>
      rw [reachesRoot_succ, Bool.or_eq_true, decide_eq_true_iff]
      constructor
      · rintro (rfl | hup)
        · exact ⟨0, Nat.zero_le _, rfl⟩
        cases hparent : h.parent n with
        | none => simp [hparent] at hup
        | some q =>
            obtain ⟨j, hj, habove⟩ := ih.mp (by simpa [hparent] using hup)
            exact ⟨j + 1, Nat.succ_le_succ hj, by rw [above_succ, hparent, Option.bind_some, habove]⟩
      · rintro ⟨_ | j, hj, habove⟩
        · exact .inl (Option.some.inj habove)
        · obtain ⟨q, hparent, hq⟩ := Option.bind_eq_some_iff.mp habove
          refine .inr ?_
          rw [hparent]
          exact ih.mpr ⟨j, Nat.le_of_succ_le_succ hj, hq⟩

theorem isAttached_root : h.isAttached root = true := reachesRoot_iff.mpr ⟨0, Nat.zero_le _, rfl⟩

/-- The way up to the root has no more steps than there are nodes. -/
theorem isAttached_of_above (habove : h.above steps n = some root) : h.isAttached n = true := by
  have hex : ∃ j, h.above j n = some root := ⟨steps, habove⟩
  let m := Nat.find hex
  have hm : h.above m n = some root := Nat.find_spec hex
  refine reachesRoot_iff.mpr ⟨m, ?_, hm⟩
  have hway : ∀ i : Fin m, ∃ x, h.above i n = some x ∧ x.index < h.count := by
    intro i
    have hsplit : h.above (i + (m - i)) n = some root := by rwa [Nat.add_sub_cancel' (Nat.le_of_lt i.isLt)]
    rw [above_add] at hsplit
    obtain ⟨x, hx, hrest⟩ := Option.bind_eq_some_iff.mp hsplit
    refine ⟨x, hx, Nat.lt_of_not_le fun hle => ?_⟩
    obtain ⟨k, hk⟩ := Nat.exists_eq_succ_of_ne_zero (Nat.sub_ne_zero_of_lt i.isLt)
    rw [hk, above_succ, parent_of_count_le hle] at hrest
    cases hrest
  choose node hnode hlt using hway
  -- a node that came twice would give a shorter way
  have hshort : ∀ i j : Fin m, i < j → node i ≠ node j := by
    intro i j hij heq
    have hrest : h.above (j + (m - j)) n = some root := by rwa [Nat.add_sub_cancel' (Nat.le_of_lt j.isLt)]
    rw [above_add, hnode j, Option.bind_some, ← heq] at hrest
    have hshorter : h.above (i + (m - j)) n = some root := by rw [above_add, hnode i, Option.bind_some, hrest]
    refine Nat.find_min hex ?_ hshorter
    have := j.isLt
    have : (i : Nat) < j := hij
    omega
  have hinjective : Function.Injective fun i : Fin m => (⟨(node i).index, hlt i⟩ : Fin h.count) := by
    intro i j hij
    have heq : node i = node j := by
      have hindex : (node i).index = (node j).index := congrArg Fin.val hij
      cases hi : node i
      cases hj : node j
      rw [hi, hj] at hindex
      exact congrArg _ hindex
    rcases lt_trichotomy i j with hlt | heq' | hlt
    · exact absurd heq (hshort i j hlt)
    · exact heq'
    · exact absurd heq.symm (hshort j i hlt)
  have hcard := Fintype.card_le_of_injective _ hinjective
  rwa [Fintype.card_fin, Fintype.card_fin] at hcard

/-- A node is attached if its parent is. -/
theorem isAttached_of_parent (hparent : h.parent n = some p) (hp : h.isAttached p = true) : h.isAttached n = true := by
  obtain ⟨j, -, habove⟩ := reachesRoot_iff.mp hp
  have hup : h.above (j + 1) n = some root := by rw [above_succ, hparent, Option.bind_some, habove]
  exact isAttached_of_above hup

/-- Nodes that stand only under one another are not attached, if the root is none of them. -/
theorem isAttached_eq_false (lost : NodeId → Prop) (hroot : ¬ lost root)
    (hup : ∀ n q, lost n → h.parent n = some q → lost q) (hn : lost n) : h.isAttached n = false := by
  have hsteps : ∀ (steps : Nat) (n : NodeId), lost n → h.reachesRoot steps n = false := by
    intro steps
    induction steps with
    | zero =>
        rintro n hn
        refine decide_eq_false ?_
        rintro rfl
        exact hroot hn
    | succ steps ih =>
        intro n hn
        have hinner : n ≠ root := by
          rintro rfl
          exact hroot hn
        rw [reachesRoot_succ, decide_eq_false hinner, Bool.false_or]
        cases hparent : h.parent n with
        | none => rfl
        | some q => exact ih q (hup n q hn hparent)
  exact hsteps _ n hn

end Parlance.Host
