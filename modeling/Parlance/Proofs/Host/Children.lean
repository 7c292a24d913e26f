import Parlance.Host.Basic

/-! What the calls of a host do to lists of children. A new node stands nowhere until it is put somewhere,
and apart from putting and removing, no call changes any list of children. -/

namespace Parlance

theorem NodeId.ext_index {n m : NodeId} (h : n.index = m.index) : n = m := by
  cases n
  cases m
  exact congrArg _ h

namespace Host

/-- How many nodes a host has given out. -/
def count (h : Host) : Nat := h.nodes.size

theorem has_iff {h : Host} {n : NodeId} : h.has n = true ↔ n.index < h.count := by
  simp [has, count]

@[simp] theorem next_index (h : Host) : h.next.index = h.count := rfl

section Modify

variable (h : Host) (n : NodeId) (f : Node → Node)

@[simp] theorem count_modify : (h.modify n f).count = h.count := Array.size_modify

theorem node_modify (m : NodeId) :
    (h.modify n f).node m = if m = n ∧ n.index < h.count then f (h.node m) else h.node m := by
  rw [node, node, modify, Array.getD_eq_getD_getElem?, Array.getD_eq_getD_getElem?, Array.getElem?_modify]
  by_cases hindex : n.index = m.index
  · obtain rfl := NodeId.ext_index hindex
    by_cases hlt : n.index < h.count
    · obtain ⟨own, hsome⟩ : ∃ own, h.nodes[n.index]? = some own := ⟨_, Array.getElem?_eq_getElem hlt⟩
      simp [hsome, hlt]
    · have hnone : h.nodes[n.index]? = none := Array.getElem?_eq_none (Nat.le_of_not_lt hlt)
      simp [hnone, hlt]
  · have hne : m ≠ n := fun heq => hindex (heq ▸ rfl)
    rw [if_neg hindex, if_neg fun hand => hne hand.1]

theorem node_modify_of_ne {m : NodeId} (hne : m ≠ n) : (h.modify n f).node m = h.node m := by
  rw [node_modify, if_neg fun hand => hne hand.1]

end Modify

@[simp] theorem node_record (h : Host) (m : Mutation) (n : NodeId) : (h.record m).node n = h.node n := rfl

@[simp] theorem count_record (h : Host) (m : Mutation) : (h.record m).count = h.count := rfl

/-- Nothing in the tree differs: there are the same nodes, and every one has the same children. -/
structure SameTree (h h' : Host) : Prop where
  count : h'.count = h.count
  children : ∀ n, h'.children n = h.children n

namespace SameTree

theorem refl (h : Host) : SameTree h h := ⟨rfl, fun _ => rfl⟩

theorem trans {h h₁ h' : Host} (hfirst : SameTree h h₁) (hsecond : SameTree h₁ h') : SameTree h h' :=
  ⟨hsecond.count.trans hfirst.count, fun n => (hsecond.children n).trans (hfirst.children n)⟩

theorem record (h : Host) (m : Mutation) : SameTree h (h.record m) := ⟨rfl, fun _ => rfl⟩

theorem modify (h : Host) (n : NodeId) {f : Node → Node} (hf : ∀ node, (f node).children = node.children) :
    SameTree h (h.modify n f) := by
  refine ⟨count_modify h n f, fun m => ?_⟩
  rw [Host.children, Host.children, node_modify]
  split
  · exact hf _
  · rfl

theorem modifyContent (h : Host) (n : NodeId) (f : Content → Content) : SameTree h (h.modifyContent n f) :=
  .modify h n fun _ => rfl

theorem setParent (h : Host) (n : NodeId) (parent : Option NodeId) : SameTree h (h.setParent n parent) :=
  .modify h n fun _ => rfl

/-- A change of what a node shows, as it is recorded. -/
theorem entry (h : Host) (n : NodeId) (f : Content → Content) (m : Mutation) :
    SameTree h ((h.modifyContent n f).record m) := (SameTree.modifyContent h n f).trans (.record _ m)

theorem addListener (h : Host) (n : NodeId) (event : String) (listener : Listener) :
    SameTree h (h.addListener n event listener).2 := by
  have hlisteners : SameTree h { h with listeners := h.listeners.push listener } := ⟨rfl, fun _ => rfl⟩
  refine hlisteners.trans (SameTree.trans ?_ (.record _ _))
  exact SameTree.modify { h with listeners := h.listeners.push listener } n fun _ => rfl

theorem removeListener (h : Host) (n : NodeId) (event : String) (id : ListenerId) :
    SameTree h (h.removeListener n event id) := by
  refine SameTree.trans ?_ (.record _ _)
  exact .modify h n fun _ => rfl

theorem rebind (h : Host) (id : ListenerId) (listener : Listener) : SameTree h (h.rebind id listener) :=
  ⟨rfl, fun _ => rfl⟩

end SameTree

/-- A node put before an anchor, or at the end. -/
def putBefore (n : NodeId) : Option NodeId → List NodeId → List NodeId
  | some reference, cs => placeBefore n reference cs
  | none, cs => cs ++ [n]

theorem placeBefore_between {n a : NodeId} {before after : List NodeId} (ha : a ∉ before) :
    placeBefore n a (before ++ a :: after) = before ++ n :: a :: after := by
  induction before with
  | nil => simp [placeBefore]
  | cons c before ih =>
      rw [List.mem_cons, not_or] at ha
      rw [List.cons_append, placeBefore, if_neg (Ne.symm ha.1), ih ha.2, List.cons_append]

section Placing

variable {h : Host} {parent : NodeId}

theorem children_dropChild (n m : NodeId) :
    (h.dropChild parent n).children m =
      if m = parent then (h.children m).filter (· ≠ n) else h.children m := by
  rw [children, dropChild, node_modify]
  by_cases heq : m = parent
  · subst heq
    by_cases hlt : m.index < h.count
    · rw [if_pos ⟨rfl, hlt⟩, if_pos rfl]
      rfl
    · have hempty : (h.node m).children = [] := by
        rw [node, Array.getD_eq_getD_getElem?, Array.getElem?_eq_none (Nat.le_of_not_lt hlt)]
        rfl
      rw [if_neg fun hand => hlt hand.2, if_pos rfl, children, hempty]
      rfl
  · rw [if_neg fun hand => heq hand.1, if_neg heq]
    rfl

theorem children_removeChild (n m : NodeId) :
    (h.removeChild parent n).children m =
      if m = parent then (h.children m).filter (· ≠ n) else h.children m :=
  (((SameTree.setParent _ n none).trans (.record _ _)).children m).trans (children_dropChild n m)

@[simp] theorem count_removeChild (n : NodeId) : (h.removeChild parent n).count = h.count := by
  rw [removeChild, count_record, setParent, count_modify, dropChild, count_modify]

theorem detach_sameTree {n : NodeId} (hfree : h.parent n = none) : SameTree h (h.detach n) := by
  rw [detach, hfree]
  exact .setParent h n none

/-- What putting a node does that stands nowhere. -/
theorem children_place {n : NodeId} {anchor : Option NodeId} (hfree : h.parent n = none)
    (hparent : parent.index < h.count) (m : NodeId) :
    (h.place parent n anchor).children m =
      if m = parent then putBefore n anchor (h.children m) else h.children m := by
  have hdetach := detach_sameTree hfree
  have hput : ∀ f : Node → Node, ((h.detach n).modify parent f).children m =
      if m = parent then (f ((h.detach n).node m)).children else h.children m := by
    intro f
    rw [children, node_modify]
    by_cases heq : m = parent
    · rw [if_pos ⟨heq, by rw [hdetach.count]; exact hparent⟩, if_pos heq]
    · rw [if_neg fun hand => heq hand.1, if_neg heq]
      exact hdetach.children m
  have hlast : ∀ (h₁ : Host) (mutation : Mutation),
      ((h₁.setParent n (some parent)).record mutation).children m = h₁.children m := fun h₁ mutation =>
    ((SameTree.setParent h₁ n (some parent)).trans (.record _ mutation)).children m
  cases anchor with
  | none =>
      rw [place, appendChild, hlast, hput]
      split
      · exact congrArg (· ++ [n]) (hdetach.children m)
      · rfl
  | some a =>
      rw [place, insertBefore, hlast, hput]
      split
      · exact congrArg (placeBefore n a) (hdetach.children m)
      · rfl

theorem count_place {n : NodeId} {anchor : Option NodeId} : (h.place parent n anchor).count = h.count := by
  have hdetach : (h.detach n).count = h.count := by
    rw [detach]
    split <;> simp [setParent, dropChild]
  cases anchor <;> simp [place, appendChild, insertBefore, setParent, hdetach]

end Placing

section Making

variable (h : Host) (kind : NodeKind)

@[simp] theorem count_alloc : (h.alloc kind).count = h.count + 1 := Array.size_push _

theorem node_alloc (m : NodeId) :
    (h.alloc kind).node m = if m = h.next then Node.new kind else h.node m := by
  rw [node, node, alloc, Array.getD_eq_getD_getElem?, Array.getD_eq_getD_getElem?, Array.getElem?_push]
  by_cases heq : m = h.next
  · subst heq
    simp [count]
  · have hindex : m.index ≠ h.nodes.size := fun hindex => heq (NodeId.ext_index hindex)
    rw [if_neg heq, if_neg hindex]

/-- The node that is not made yet has no children. -/
theorem children_of_count_le {n : NodeId} (hle : h.count ≤ n.index) : h.children n = [] := by
  rw [children, node, Array.getD_eq_getD_getElem?, Array.getElem?_eq_none hle]
  rfl

theorem children_alloc (n : NodeId) : (h.alloc kind).children n = h.children n := by
  rw [children, node_alloc]
  by_cases heq : n = h.next
  · rw [if_pos heq, heq, children_of_count_le h (Nat.le_of_eq (next_index h).symm)]
    rfl
  · rw [if_neg heq]
    rfl

/-- A new node, put under a parent. -/
def putNode (c : NodeId) (anchor : Option NodeId) (m : Mutation) : Host :=
  ((h.alloc kind).record m).place c h.next anchor

variable {h} {parent : NodeId} {anchor : Option NodeId} {m : Mutation}

variable (parent anchor) in
/-- One new node has been put under a parent. -/
structure Puts (h h' : Host) : Prop where
  count : h'.count = h.count + 1
  children : ∀ n, h'.children n = if n = parent then putBefore h.next anchor (h.children n) else h.children n

theorem putNode_puts (hparent : parent.index < h.count) : Puts parent anchor h (h.putNode kind parent anchor m) := by
  refine ⟨by rw [putNode, count_place, count_record, count_alloc], fun n => ?_⟩
  have hfree : ((h.alloc kind).record m).parent h.next = none := by
    rw [Host.parent, node_record, node_alloc, if_pos rfl]
    rfl
  have hlt : parent.index < ((h.alloc kind).record m).count := by
    rw [count_record, count_alloc]
    exact Nat.lt_succ_of_lt hparent
  have hold : ((h.alloc kind).record m).children n = h.children n := children_alloc h kind n
  rw [putNode, children_place hfree hlt, hold]

theorem insertRaw_puts (markup : String) (hparent : parent.index < h.count) :
    Puts parent anchor h (h.insertRaw parent markup anchor).2 := by
  refine ⟨by simp [insertRaw, setParent], fun n => ?_⟩
  have hlt : parent.index < (h.alloc (.raw markup)).count := by
    rw [count_alloc]
    exact Nat.lt_succ_of_lt hparent
  rw [insertRaw]
  refine (((SameTree.setParent _ _ _).trans (.record _ _)).children n).trans ?_
  rw [children, node_modify]
  by_cases heq : n = parent
  · rw [if_pos ⟨heq, hlt⟩, if_pos heq]
    cases anchor with
    | none => exact congrArg (· ++ [h.next]) (children_alloc h _ n)
    | some a => exact congrArg (placeBefore h.next a) (children_alloc h _ n)
  · rw [if_neg fun hand => heq hand.1, if_neg heq]
    exact children_alloc h _ n

end Making

/-- Nodes have been taken out of the children of a parent, and nothing else has happened to any children. -/
structure Takes (parent : NodeId) (ns : List NodeId) (h h' : Host) : Prop where
  count : h'.count = h.count
  children : ∀ n, h'.children n = if n = parent then (h.children n).filter (· ∉ ns) else h.children n

namespace Takes

variable {parent : NodeId} {ns ns' : List NodeId} {h h₁ h' : Host}

theorem none (hsame : SameTree h h') : Takes parent [] h h' := by
  refine ⟨hsame.count, fun n => ?_⟩
  rw [hsame.children]
  split
  · exact (List.filter_eq_self.mpr (by simp)).symm
  · rfl

theorem one (n : NodeId) (h : Host) : Takes parent [n] h (h.removeChild parent n) := by
  refine ⟨count_removeChild n, fun m => ?_⟩
  rw [children_removeChild]
  simp

theorem trans (hfirst : Takes parent ns h h₁) (hsecond : Takes parent ns' h₁ h') :
    Takes parent (ns ++ ns') h h' := by
  refine ⟨hsecond.count.trans hfirst.count, fun n => ?_⟩
  rw [hsecond.children, hfirst.children]
  split
  · rw [List.filter_filter]
    congr 1
    funext x
    simp [Bool.and_comm]
  · rfl

/-- Nodes that are removed one by one. -/
theorem all (ns : List NodeId) (h : Host) :
    Takes parent ns h (ns.foldl (fun h n => h.removeChild parent n) h) := by
  induction ns generalizing h with
  | nil => exact none (.refl h)
  | cons n ns ih => exact (one n h).trans (ih _)

end Takes

/-- Every child is a node of the host. This is so from the start, and the calls that change children keep it as
long as they are given nodes of the host. -/
def Closed (h : Host) : Prop := ∀ n, ∀ m ∈ h.children n, m.index < h.count

section Closed

variable {h h' : Host} {parent n : NodeId}

theorem closed_new : Host.new.Closed := by
  have hempty : ∀ n, Host.new.children n = [] := by
    intro n
    rw [children, node, new, Array.getD_eq_getD_getElem?]
    by_cases hroot : n.index = 0
    · rw [hroot]
      rfl
    · rw [Array.getElem?_eq_none (show 1 ≤ n.index by omega)]
      rfl
  intro n m hm
  simp [hempty] at hm

theorem SameTree.closed (hsame : SameTree h h') (hclosed : h.Closed) : h'.Closed := by
  intro n m hm
  rw [hsame.count]
  exact hclosed n m (hsame.children n ▸ hm)

theorem Closed.alloc (hclosed : h.Closed) (kind : NodeKind) : (h.alloc kind).Closed := by
  intro n m hm
  rw [children_alloc] at hm
  rw [count_alloc]
  exact Nat.lt_succ_of_lt (hclosed n m hm)

theorem Takes.closed {ns : List NodeId} (htakes : Takes parent ns h h') (hclosed : h.Closed) : h'.Closed := by
  intro n m hm
  rw [htakes.children] at hm
  rw [htakes.count]
  split at hm
  · exact hclosed n m ((List.mem_filter.mp hm).1)
  · exact hclosed n m hm

theorem mem_putBefore {anchor : Option NodeId} {ns : List NodeId} {m : NodeId} (hm : m ∈ putBefore n anchor ns) :
    m = n ∨ m ∈ ns := by
  cases anchor with
  | none => simpa [putBefore, or_comm] using hm
  | some a =>
      rw [putBefore] at hm
      induction ns with
      | nil => simpa [placeBefore] using hm
      | cons c ns ih =>
          rw [placeBefore] at hm
          split at hm
          · simpa using hm
          · rcases List.mem_cons.mp hm with rfl | hm
            · exact .inr List.mem_cons_self
            · exact (ih hm).imp_right (List.mem_cons_of_mem c)

theorem Puts.closed {anchor : Option NodeId} (hputs : Puts parent anchor h h') (hclosed : h.Closed) :
    h'.Closed := by
  intro n m hm
  rw [hputs.children] at hm
  rw [hputs.count]
  split at hm
  · rcases mem_putBefore hm with rfl | hm
    · exact Nat.lt_succ_self _
    · exact Nat.lt_succ_of_lt (hclosed n m hm)
  · exact Nat.lt_succ_of_lt (hclosed n m hm)

theorem Closed.detach (hclosed : h.Closed) (n : NodeId) : (h.detach n).Closed := by
  rw [Host.detach]
  refine SameTree.closed (.setParent _ n none) ?_
  split
  · intro q m hm
    rw [children_dropChild] at hm
    rw [dropChild, count_modify]
    split at hm
    · exact hclosed q m ((List.mem_filter.mp hm).1)
    · exact hclosed q m hm
  · exact hclosed

/-- A node of the host may be put anywhere. -/
theorem Closed.place (hclosed : h.Closed) (hn : n.index < h.count) (anchor : Option NodeId) :
    (h.place parent n anchor).Closed := by
  have hcount : (h.detach n).count = h.count := by
    rw [Host.detach]
    split <;> simp [setParent, dropChild]
  have hput : ∀ f : Node → Node, (∀ node, (f node).children = putBefore n anchor node.children) →
      ((h.detach n).modify parent f).Closed := by
    intro f hf q m hm
    rw [children, node_modify] at hm
    rw [count_modify, hcount]
    have hold := hclosed.detach n q
    rw [hcount] at hold
    split at hm
    · rw [hf] at hm
      rcases mem_putBefore hm with rfl | hm
      · exact hn
      · exact hold m hm
    · exact hold m hm
  cases anchor with
  | none => exact SameTree.closed ((SameTree.setParent _ n (some parent)).trans (.record _ _)) (hput _ fun _ => rfl)
  | some a => exact SameTree.closed ((SameTree.setParent _ n (some parent)).trans (.record _ _)) (hput _ fun _ => rfl)

end Closed

end Host

end Parlance
