import Parlance.Proofs.Host.Links

/-! Changes of a host that mind some of the children of a node: these stay, in their order, and only others come and
go among them. This is asked of single calls, wherever they put or take a node. -/

namespace Parlance.Host

/-- Of the children of a node those that are to be kept have stayed. -/
structure Minds (root : NodeId) (keep : List NodeId) (h h' : Host) : Prop where
  count : h.count ≤ h'.count
  children : (h'.children root).filter (· ∈ keep) = (h.children root).filter (· ∈ keep)
  parent : ∀ n ∈ keep, h'.parent n = h.parent n

variable {root parent n : NodeId} {keep ns : List NodeId} {anchor : Option NodeId} {h h₁ h' : Host}

theorem filter_putBefore {cs : List NodeId} (hn : n ∉ keep) :
    (putBefore n anchor cs).filter (· ∈ keep) = cs.filter (· ∈ keep) := by
  cases anchor with
  | none => simp [putBefore, hn]
  | some a =>
      rw [putBefore]
      induction cs with
      | nil => simp [placeBefore, hn]
      | cons c cs ih =>
          rw [placeBefore]
          split
          · rw [List.filter_cons_of_neg (by simpa using hn)]
          · rw [List.filter_cons, List.filter_cons, ih]

namespace Minds

theorem refl (h : Host) : Minds root keep h h := ⟨Nat.le_refl _, rfl, fun _ _ => rfl⟩

theorem trans (hfirst : Minds root keep h h₁) (hsecond : Minds root keep h₁ h') : Minds root keep h h' :=
  ⟨Nat.le_trans hfirst.count hsecond.count, hsecond.children.trans hfirst.children,
    fun n hn => (hsecond.parent n hn).trans (hfirst.parent n hn)⟩

theorem links (htree : SameTree h h') (hparent : ∀ n, h'.parent n = h.parent n) : Minds root keep h h' :=
  ⟨Nat.le_of_eq htree.count.symm, by rw [htree.children], fun n _ => hparent n⟩

theorem drops (hdrops : Drops parent ns h h') (hns : ∀ n ∈ ns, n ∉ keep) : Minds root keep h h' where
  count := Nat.le_of_eq hdrops.takes.count.symm
  children := by
    rw [hdrops.takes.children]
    split
    · rw [List.filter_filter]
      refine List.filter_congr fun n _ => ?_
      by_cases hn : n ∈ ns
      · simp [hns n hn]
      · simp [hn]
    · rfl
  parent n hn := by rw [hdrops.parent, if_neg fun hmem => hns n hmem hn]

theorem adds (hkeep : ∀ n ∈ keep, n.index < h.count) (hadds : Adds parent anchor h h') : Minds root keep h h' := by
  have hnext : ∀ n ∈ keep, n ≠ h.next := by
    rintro n hn rfl
    exact Nat.lt_irrefl _ (hkeep _ hn)
  refine ⟨Nat.le_of_succ_le (Nat.le_of_eq hadds.puts.count.symm), ?_, fun n hn => ?_⟩
  · rw [hadds.puts.children]
    split
    · exact filter_putBefore fun hmem => hnext _ hmem rfl
    · rfl
  · rw [hadds.parent, if_neg (hnext n hn)]

end Minds

end Parlance.Host
