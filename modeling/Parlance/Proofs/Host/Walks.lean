import Mathlib.Data.Fintype.Card
import Mathlib.Logic.Relation
import Parlance.Proofs.Host.Attachment
import Parlance.Proofs.Host.Forests

/-! The walk over a forest. Everything under a node, each node before what is under it, is what the walk with a stack
lists: it comes to every node once, so it has steps enough. -/

namespace Parlance.Host

/-- Everything under a node down to a depth, each node before what is under it. -/
def under (h : Host) : Nat → NodeId → List NodeId
  | 0, _ => []
  | depth + 1, n => (h.children n).flatMap fun c => c :: h.under depth c

variable {h : Host} {n m p c : NodeId}

theorem Below.lt (hbelow : h.Below p c) : c.index < h.count := by
  obtain ⟨q, -, hparent⟩ := Relation.TransGen.tail'_iff.mp hbelow
  refine Nat.lt_of_not_le fun hle => ?_
  rw [parent_of_count_le hle] at hparent
  cases hparent

open Classical in
/-- How many nodes stand below a node. -/
noncomputable def rank (h : Host) (n : NodeId) : Nat :=
  (Finset.univ.filter fun m : Fin h.count => h.Below n ⟨m⟩).card

theorem rank_le (h : Host) (n : NodeId) : h.rank n ≤ h.count :=
  (Finset.card_le_univ _).trans_eq (Fintype.card_fin _)

theorem atOrBelow_iff : h.AtOrBelow p n ↔ n = p ∨ h.Below p n := Relation.reflTransGen_iff_eq_or_transGen

/-- What is above a node is at or above its parent. -/
theorem Below.parent (hbelow : h.Below n c) (hc : h.parent c = some p) : h.AtOrBelow n p := by
  obtain ⟨q, hle, hq⟩ := Relation.TransGen.tail'_iff.mp hbelow
  obtain rfl : p = q := Option.some.inj (hc.symm.trans hq)
  exact hle

/-- Of two nodes at or above a third, one is at or above the other. -/
theorem above_total {c' : NodeId} (hc : h.AtOrBelow c m) (hc' : h.AtOrBelow c' m) :
    h.AtOrBelow c c' ∨ h.AtOrBelow c' c := by
  have hunique : Relator.RightUnique (Function.swap fun p c : NodeId => h.parent c = some p) := fun _ _ _ hp hq =>
    Option.some.inj (hp.symm.trans hq)
  exact (Relation.ReflTransGen.total_of_right_unique hunique hc.swap hc'.swap).symm.imp (·.swap) (·.swap)

namespace Forest

variable (hforest : Forest h)
include hforest

/-- Fewer nodes stand below a child. -/
theorem rank_lt (hc : h.parent c = some p) : h.rank c < h.rank p := by
  classical
  have hlt : c.index < h.count := Below.lt (.single hc)
  refine Finset.card_lt_card ⟨fun m hm => ?_, fun hsub => ?_⟩
  · simp only [Finset.mem_filter, Finset.mem_univ, true_and] at hm ⊢
    exact .head hc hm
  · have hself := hsub (Finset.mem_filter.mpr ⟨Finset.mem_univ (⟨c.index, hlt⟩ : Fin h.count), .single hc⟩)
    exact hforest.acyclic c (Finset.mem_filter.mp hself).2

theorem rank_child (hc : c ∈ h.children n) : h.rank c < h.rank n := hforest.rank_lt ((hforest.links n c).mp hc)

/-- Where no node stands below a node, it has no children. -/
theorem children_of_rank (hrank : h.rank n ≤ 0) : h.children n = [] :=
  List.eq_nil_iff_forall_not_mem.mpr fun _ hc => Nat.not_lt_zero _ ((hforest.rank_child hc).trans_le hrank)

/-- Deeper than there are nodes below a node, nothing stands under it. -/
theorem under_succ {depth : Nat} (hdepth : h.rank n ≤ depth) : h.under (depth + 1) n = h.under depth n := by
  induction depth generalizing n with
  | zero => simp only [under, hforest.children_of_rank hdepth, List.flatMap_nil]
  | succ depth ih =>
      rw [under, under]
      refine List.flatMap_congr fun c hc => ?_
      have hlt := hforest.rank_child hc
      rw [ih (by omega)]

theorem under_count (n : NodeId) : h.under h.count n = (h.children n).flatMap fun c => c :: h.under h.count c := by
  rw [← hforest.under_succ (h.rank_le n), under]

theorem below_of_mem_under {depth : Nat} (hm : m ∈ h.under depth n) : h.Below n m := by
  induction depth generalizing n with
  | zero => cases hm
  | succ depth ih =>
      rw [under, List.mem_flatMap] at hm
      obtain ⟨c, hc, hm⟩ := hm
      have hlink := (hforest.links n c).mp hc
      rcases List.mem_cons.mp hm with rfl | hm
      · exact .single hlink
      · exact .head hlink (ih hm)

theorem atOrBelow_of_mem_under {depth : Nat} (hm : m ∈ c :: h.under depth c) : h.AtOrBelow c m := by
  rcases List.mem_cons.mp hm with rfl | hm
  · exact .refl
  · exact (hforest.below_of_mem_under hm).to_reflTransGen

theorem mem_under : m ∈ h.under h.count n ↔ h.Below n m := by
  refine ⟨hforest.below_of_mem_under, fun hbelow => ?_⟩
  induction hbelow using Relation.TransGen.head_induction_on with
  | single hlink =>
      rw [hforest.under_count, List.mem_flatMap]
      exact ⟨m, (hforest.links _ _).mpr hlink, List.mem_cons_self⟩
  | head hlink _ ih =>
      rw [hforest.under_count, List.mem_flatMap]
      exact ⟨_, (hforest.links _ _).mpr hlink, List.mem_cons_of_mem _ ih⟩

/-- Nothing stands between a node and its child. -/
theorem not_between {q : NodeId} (hc : h.parent c = some n) (hq : h.Below n q) : ¬ h.Below q c := fun hqc =>
  hforest.acyclic n (hq.trans_left (hqc.parent hc))

/-- A child of a node is not below another child of it. -/
theorem siblings_eq {c' : NodeId} (hc : h.parent c = some n) (hc' : h.parent c' = some n) (hle : h.AtOrBelow c c') :
    c = c' := by
  rcases atOrBelow_iff.mp hle with heq | hbelow
  · exact heq.symm
  · have hcycle : h.Below n n := Relation.TransGen.head'_iff.mpr ⟨c, hc, hbelow.parent hc'⟩
    exact absurd hcycle (hforest.acyclic n)

/-- What stands at or below two children of a node is apart. -/
theorem siblings_apart {c' : NodeId} (hc : h.parent c = some n) (hc' : h.parent c' = some n) (hm : h.AtOrBelow c m)
    (hm' : h.AtOrBelow c' m) : c = c' := by
  rcases above_total hm hm' with hle | hle
  · exact hforest.siblings_eq hc hc' hle
  · exact (hforest.siblings_eq hc' hc hle).symm

theorem nodup_under (depth : Nat) (n : NodeId) : (h.under depth n).Nodup := by
  induction depth generalizing n with
  | zero => exact List.nodup_nil
  | succ depth ih =>
      rw [under, List.nodup_flatMap]
      refine ⟨fun c _ => List.nodup_cons.mpr ⟨fun hc => hforest.acyclic c (hforest.below_of_mem_under hc), ih c⟩, ?_⟩
      refine (hforest.nodup n).imp_of_mem fun {c c'} hc hc' hne => ?_
      refine List.disjoint_left.mpr fun m hm hm' => hne ?_
      exact hforest.siblings_apart ((hforest.links n c).mp hc) ((hforest.links n c').mp hc')
        (hforest.atOrBelow_of_mem_under hm) (hforest.atOrBelow_of_mem_under hm')

theorem length_under (n : NodeId) : (h.under h.count n).length ≤ h.count := by
  have hnodup : ((h.under h.count n).map NodeId.index).Nodup :=
    (hforest.nodup_under _ n).map fun _ _ => NodeId.ext_index
  have hsub : (h.under h.count n).map NodeId.index ⊆ List.range h.count := by
    intro i hi
    obtain ⟨m, hm, rfl⟩ := List.mem_map.mp hi
    exact List.mem_range.mpr (hforest.mem_under.mp hm).lt
  have hle := (List.subperm_of_subset hnodup hsub).length_le
  rwa [List.length_map, List.length_range] at hle

/-- What is still to be listed for a stack: its first node, and then what is to be listed once that is replaced by its
children. -/
theorem flatMap_under_cons (n : NodeId) (stack : List NodeId) :
    (n :: stack).flatMap (fun c => c :: h.under h.count c) =
      n :: (h.children n ++ stack).flatMap fun c => c :: h.under h.count c := by
  rw [List.flatMap_cons, List.flatMap_append, List.cons_append, hforest.under_count n]

/-- The walk from a stack, if it has steps enough, lists every node of the stack and what is under it. -/
theorem walk_eq {steps : Nat} {stack : List NodeId}
    (hsteps : (stack.flatMap fun c => c :: h.under h.count c).length ≤ steps) :
    h.walk steps stack = stack.flatMap fun c => c :: h.under h.count c := by
  induction steps generalizing stack with
  | zero =>
      cases stack with
      | nil => rfl
      | cons n stack => simp at hsteps
  | succ steps ih =>
      cases stack with
      | nil => rfl
      | cons n stack =>
          rw [hforest.flatMap_under_cons, List.length_cons] at hsteps
          rw [hforest.flatMap_under_cons, walk, ih (Nat.le_of_succ_le_succ hsteps)]

/-- The descendants of a node are everything under it, each node before what is under it. -/
theorem descendants_eq (n : NodeId) : h.descendants n = h.under h.count n := by
  rw [descendants, hforest.walk_eq, ← hforest.under_count]
  rw [← hforest.under_count]
  exact (hforest.length_under n).trans ((Nat.le_succ _).trans (Nat.le_self_pow (Nat.succ_ne_zero 1) _))

theorem mem_descendants : m ∈ h.descendants n ↔ h.Below n m := by
  rw [hforest.descendants_eq, hforest.mem_under]

end Forest

theorem exists_above_iff : (∃ steps, h.above steps n = some p) ↔ h.AtOrBelow p n := by
  constructor
  · rintro ⟨steps, habove⟩
    induction steps generalizing n with
    | zero => exact Option.some.inj habove ▸ .refl
    | succ steps ih =>
        obtain ⟨q, hparent, hrest⟩ := Option.bind_eq_some_iff.mp habove
        exact (ih hrest).tail hparent
  · intro hle
    induction hle with
    | refl => exact ⟨0, rfl⟩
    | tail _ hparent ih =>
        obtain ⟨steps, habove⟩ := ih
        exact ⟨steps + 1, by rw [above_succ, hparent, Option.bind_some, habove]⟩

theorem isAttached_iff : h.isAttached n = true ↔ h.AtOrBelow root n := by
  rw [← exists_above_iff]
  exact ⟨fun hn => (reachesRoot_iff.mp hn).imp fun _ => And.right, fun ⟨_, habove⟩ => isAttached_of_above habove⟩

/-- The nodes that are attached are the root and its descendants. -/
theorem Forest.isAttached_iff_mem (hforest : Forest h) :
    h.isAttached n = true ↔ n = root ∨ n ∈ h.descendants root := by
  rw [isAttached_iff, hforest.mem_descendants, atOrBelow_iff]

end Parlance.Host
