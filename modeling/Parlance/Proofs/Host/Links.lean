import Parlance.Proofs.Host.Calls

/-! What the calls of a host do to the links that are kept on the other side: the parent of every node, and the
listeners that are bound to it. Together with what they do to children and contents this says all that a call
does. -/

namespace Parlance.Host

/-- The listeners that are bound to a node, in the order of binding. -/
def bound (h : Host) (n : NodeId) : List (ListenerId × String) := (h.node n).listeners

/-- Every node has the same parent and the same listeners, and these call the same. -/
structure SameLinks (h h' : Host) : Prop where
  parent : ∀ n, h'.parent n = h.parent n
  bound : ∀ n, h'.bound n = h.bound n
  targets : h'.listeners = h.listeners

namespace SameLinks

variable {h h₁ h' : Host}

theorem refl (h : Host) : SameLinks h h := ⟨fun _ => rfl, fun _ => rfl, rfl⟩

theorem trans (hfirst : SameLinks h h₁) (hsecond : SameLinks h₁ h') : SameLinks h h' :=
  ⟨fun n => (hsecond.parent n).trans (hfirst.parent n), fun n => (hsecond.bound n).trans (hfirst.bound n),
    hsecond.targets.trans hfirst.targets⟩

theorem record (h : Host) (m : Mutation) : SameLinks h (h.record m) := ⟨fun _ => rfl, fun _ => rfl, rfl⟩

theorem modify (h : Host) (n : NodeId) {f : Node → Node} (hparent : ∀ node, (f node).parent = node.parent)
    (hbound : ∀ node, (f node).listeners = node.listeners) : SameLinks h (h.modify n f) := by
  refine ⟨fun m => ?_, fun m => ?_, rfl⟩
  · rw [Host.parent, Host.parent, node_modify]
    split
    · exact hparent _
    · rfl
  · rw [Host.bound, Host.bound, node_modify]
    split
    · exact hbound _
    · rfl

theorem modifyContent (h : Host) (n : NodeId) (f : Content → Content) : SameLinks h (h.modifyContent n f) :=
  .modify h n (fun _ => rfl) fun _ => rfl

/-- A change of what a node shows, as it is recorded. -/
theorem entry (h : Host) (n : NodeId) (f : Content → Content) (m : Mutation) :
    SameLinks h ((h.modifyContent n f).record m) := (SameLinks.modifyContent h n f).trans (.record _ m)

theorem dropChild (h : Host) (parent n : NodeId) : SameLinks h (h.dropChild parent n) :=
  .modify h parent (fun _ => rfl) fun _ => rfl

end SameLinks

/-- Only what one node shows has changed. -/
structure Inscribes (n : NodeId) (h h' : Host) : Prop where
  tree : SameTree h h'
  links : SameLinks h h'
  others : ∀ m, m ≠ n → h'.content m = h.content m
  calls : ∃ ms, h'.calls = h.calls ++ ms ∧ ∀ m ∈ ms, m.inscribed? = some n

namespace Inscribes

variable {n : NodeId} {h h₁ h' : Host}

theorem refl (n : NodeId) (h : Host) : Inscribes n h h :=
  ⟨.refl h, .refl h, fun _ _ => rfl, [], (List.append_nil _).symm, by simp⟩

theorem trans (hfirst : Inscribes n h h₁) (hsecond : Inscribes n h₁ h') : Inscribes n h h' := by
  refine ⟨hfirst.tree.trans hsecond.tree, hfirst.links.trans hsecond.links,
    fun m hm => (hsecond.others m hm).trans (hfirst.others m hm), ?_⟩
  obtain ⟨ms, hcalls, hms⟩ := hfirst.calls
  obtain ⟨ms', hcalls', hms'⟩ := hsecond.calls
  exact ⟨ms ++ ms', by rw [hcalls', hcalls, List.append_assoc],
    fun m hm => (List.mem_append.mp hm).elim (hms m) (hms' m)⟩

theorem entry (h : Host) (n : NodeId) (f : Content → Content) (m : Mutation) (hm : m.inscribed? = some n) :
    Inscribes n h ((h.modifyContent n f).record m) :=
  ⟨.entry h n f m, .entry h n f m, fun _ hm => congrArg Node.content (node_modify_of_ne h n _ hm), [m],
    calls_record _ m, by simpa using hm⟩

theorem foldl {α : Type} {f : Host → α → Host} (hf : ∀ h a, Inscribes n h (f h a)) (h : Host) (as : List α) :
    Inscribes n h (as.foldl f h) := by
  induction as generalizing h with
  | nil => exact .refl n h
  | cons a as ih => exact (hf h a).trans (ih (f h a))

theorem writeAll (h : Host) (n : NodeId) (ws : List Write) : Inscribes n h (h.writeAll n ws) :=
  .foldl (fun h w => by cases w <;> exact .entry h n _ _ rfl) h ws

end Inscribes

section Parents

variable {h : Host} {n : NodeId}

/-- A node that is not there has no parent. -/
theorem parent_of_count_le (hle : h.count ≤ n.index) : h.parent n = none := by
  rw [parent, node, Array.getD_eq_getD_getElem?, Array.getElem?_eq_none hle]
  rfl

theorem bound_of_count_le (hle : h.count ≤ n.index) : h.bound n = [] := by
  rw [bound, node, Array.getD_eq_getD_getElem?, Array.getElem?_eq_none hle]
  rfl

theorem parent_setParent (h : Host) (n : NodeId) (parent : Option NodeId) (m : NodeId) (hn : n.index < h.count) :
    (h.setParent n parent).parent m = if m = n then parent else h.parent m := by
  rw [Host.parent, setParent, node_modify]
  by_cases heq : m = n
  · rw [if_pos ⟨heq, hn⟩, if_pos heq]
  · rw [if_neg fun hand => heq hand.1, if_neg heq]
    rfl

theorem bound_setParent (h : Host) (n : NodeId) (parent : Option NodeId) (m : NodeId) :
    (h.setParent n parent).bound m = h.bound m := by
  rw [bound, bound, setParent, node_modify]
  split <;> rfl

theorem parent_alloc (h : Host) (kind : NodeKind) (m : NodeId) : (h.alloc kind).parent m = h.parent m := by
  rw [parent, node_alloc]
  split
  next heq => rw [heq, parent_of_count_le (Nat.le_of_eq (next_index h).symm), Node.new]
  next => rfl

theorem bound_alloc (h : Host) (kind : NodeKind) (m : NodeId) : (h.alloc kind).bound m = h.bound m := by
  rw [bound, node_alloc]
  split
  next heq => rw [heq, bound_of_count_le (Nat.le_of_eq (next_index h).symm), Node.new]
  next => rfl

/-- On a new host nothing is bound. -/
theorem bound_new (n : NodeId) : new.bound n = [] := by
  obtain ⟨_ | i⟩ := n
  · rfl
  · exact bound_of_count_le (Nat.succ_le_succ (Nat.zero_le i))

end Parents

section Binding

variable (h : Host) {n : NodeId} (event : String) (listener : Listener) (id : ListenerId) (m : NodeId)

theorem parent_addListener : (h.addListener n event listener).2.parent m = h.parent m := by
  unfold addListener
  rw [Host.parent, node_record, node_modify]
  split <;> rfl

theorem bound_addListener (hn : n.index < h.count) : (h.addListener n event listener).2.bound m =
    if m = n then h.bound m ++ [((h.addListener n event listener).1, event)] else h.bound m := by
  unfold addListener
  rw [bound, node_record, node_modify]
  by_cases heq : m = n
  · rw [if_pos ⟨heq, hn⟩, if_pos heq]
    rfl
  · rw [if_neg fun hand => heq hand.1, if_neg heq]
    rfl

theorem parent_removeListener : (h.removeListener n event id).parent m = h.parent m := by
  rw [removeListener, Host.parent, node_record, node_modify]
  split <;> rfl

theorem bound_removeListener : (h.removeListener n event id).bound m =
    if m = n then (h.bound m).filter (·.1 ≠ id) else h.bound m := by
  rw [removeListener, bound, node_record, node_modify]
  by_cases heq : m = n
  · subst heq
    by_cases hlt : m.index < h.count
    · rw [if_pos ⟨rfl, hlt⟩, if_pos rfl]
      rfl
    · have hnone := bound_of_count_le (Nat.le_of_not_lt hlt)
      rw [if_neg fun hand => hlt hand.2, if_pos rfl, hnone]
      exact hnone
  · rw [if_neg fun hand => heq hand.1, if_neg heq]
    rfl

end Binding

/-- The calls by which a new node is made and put under a parent. -/
inductive Placing (parent : NodeId) : Option NodeId → NodeId → List Mutation → Prop
  | append {n : NodeId} {m : Mutation} (hm : m.made? = some n) : Placing parent none n [m, .append parent n]
  | insert {n a : NodeId} {m : Mutation} (hm : m.made? = some n) :
      Placing parent (some a) n [m, .insertBefore parent n a]
  | raw {anchor : Option NodeId} {n : NodeId} (markup : String) : Placing parent anchor n [.insertRaw parent markup]

/-- One new node has been put under a parent, and nothing else has happened. -/
structure Adds (p : NodeId) (anchor : Option NodeId) (h h' : Host) : Prop where
  puts : Puts p anchor h h'
  content : ∀ n, n ≠ h.next → h'.content n = h.content n
  parent : ∀ n, h'.parent n = if n = h.next then some p else h.parent n
  bound : ∀ n, h'.bound n = h.bound n
  targets : h'.listeners = h.listeners
  calls : ∃ ms, h'.calls = h.calls ++ ms ∧ Placing p anchor h.next ms

section Adding

variable {h : Host} {parent : NodeId} {anchor : Option NodeId}

/-- Putting a node that stands nowhere links it to its new parent, and no other node. -/
theorem links_place {n : NodeId} (hfree : h.parent n = none) (hn : n.index < h.count) (m : NodeId) :
    (h.place parent n anchor).parent m = (if m = n then some parent else h.parent m) ∧
      (h.place parent n anchor).bound m = h.bound m := by
  have hdetach : h.detach n = h.setParent n none := by rw [detach, hfree]
  have hlast : ∀ {h₁ : Host} (mutation : Mutation), SameLinks (h.setParent n none) h₁ → h₁.count = h.count →
      ((h₁.setParent n (some parent)).record mutation).parent m = (if m = n then some parent else h.parent m) ∧
        ((h₁.setParent n (some parent)).record mutation).bound m = h.bound m := by
    intro h₁ mutation hsame hcount
    rw [(SameLinks.record _ mutation).parent, (SameLinks.record _ mutation).bound,
      parent_setParent _ _ _ _ (hcount ▸ hn), bound_setParent, hsame.parent, hsame.bound,
      parent_setParent _ _ _ _ hn, bound_setParent]
    refine ⟨?_, rfl⟩
    split <;> rfl
  have hcount : ∀ f : Node → Node, ((h.setParent n none).modify parent f).count = h.count := fun f => by
    rw [count_modify, setParent, count_modify]
  cases anchor with
  | none =>
      rw [place, appendChild, hdetach]
      exact hlast _ (.modify _ parent (fun _ => rfl) fun _ => rfl) (hcount _)
  | some a =>
      rw [place, insertBefore, hdetach]
      exact hlast _ (.modify _ parent (fun _ => rfl) fun _ => rfl) (hcount _)

theorem targets_place (n : NodeId) : (h.place parent n anchor).listeners = h.listeners := by
  have hdetach : (h.detach n).listeners = h.listeners := by
    rw [detach]
    split <;> rfl
  cases anchor with
  | none =>
      rw [place, appendChild, ← hdetach]
      generalize h.detach n = detached
      rfl
  | some a =>
      rw [place, insertBefore, ← hdetach]
      generalize h.detach n = detached
      rfl

theorem calls_place (h : Host) (parent n : NodeId) (anchor : Option NodeId) : (h.place parent n anchor).calls =
    h.calls ++ [match anchor with | none => .append parent n | some a => .insertBefore parent n a] := by
  have hdetach : (h.detach n).calls = h.calls := by
    rw [detach]
    split <;> rfl
  cases anchor with
  | none =>
      rw [place, appendChild, calls_record, ← hdetach]
      generalize h.detach n = detached
      rfl
  | some a =>
      rw [place, insertBefore, calls_record, ← hdetach]
      generalize h.detach n = detached
      rfl

theorem putNode_adds (kind : NodeKind) {m : Mutation} (hm : m.made? = some h.next) (hparent : parent.index < h.count) :
    Adds parent anchor h (h.putNode kind parent anchor m) := by
  have hnext : h.count ≤ h.next.index := Nat.le_of_eq (next_index h).symm
  have hfree : ((h.alloc kind).record m).parent h.next = none := by
    rw [(SameLinks.record _ m).parent, parent_alloc, parent_of_count_le hnext]
  have hlt : h.next.index < ((h.alloc kind).record m).count := by
    rw [count_record, count_alloc]
    exact Nat.lt_succ_self _
  refine ⟨putNode_puts kind hparent, fun n hn => ?_, fun n => ?_, fun n => ?_, targets_place h.next, ?_⟩
  · rw [(putNode_makes h parent kind anchor m).content, if_neg hn]
  · rw [putNode, (links_place hfree hlt n).1, (SameLinks.record _ m).parent, parent_alloc]
  · rw [putNode, (links_place hfree hlt n).2, (SameLinks.record _ m).bound, bound_alloc]
  · have hmade : ((h.alloc kind).record m).calls = h.calls ++ [m] := by rw [calls_record, calls_alloc]
    have hcalls := calls_place ((h.alloc kind).record m) parent h.next anchor
    rw [hmade, List.append_assoc] at hcalls
    cases anchor with
    | none => exact ⟨_, hcalls, .append hm⟩
    | some a => exact ⟨_, hcalls, .insert hm⟩

theorem insertRaw_adds (markup : String) (hparent : parent.index < h.count) :
    Adds parent anchor h (h.insertRaw parent markup anchor).2 := by
  have hsame : ∀ f : Node → List NodeId, SameLinks (h.alloc (.raw markup))
      ((h.alloc (.raw markup)).modify parent fun node => { node with children := f node }) := fun _ =>
    .modify _ parent (fun _ => rfl) fun _ => rfl
  refine ⟨insertRaw_puts markup hparent, fun n hn => ?_, fun n => ?_, fun n => ?_, rfl, _, calls_record _ _, .raw markup⟩
  · rw [(insertRaw_makes h parent markup anchor).content, if_neg hn]
  · rw [insertRaw, (SameLinks.record _ _).parent, parent_setParent, (hsame _).parent, parent_alloc]
    rw [count_modify, count_alloc]
    exact Nat.lt_succ_self _
  · rw [insertRaw, (SameLinks.record _ _).bound, bound_setParent, (hsame _).bound, bound_alloc]

end Adding

/-- Nodes have been taken out of the children of a parent, and nothing else has happened. -/
structure Drops (p : NodeId) (ns : List NodeId) (h h' : Host) : Prop where
  takes : Takes p ns h h'
  content : ∀ n, h'.content n = h.content n
  parent : ∀ n, h'.parent n = if n ∈ ns then none else h.parent n
  bound : ∀ n, h'.bound n = h.bound n
  targets : h'.listeners = h.listeners
  calls : h'.calls = h.calls ++ ns.map (.remove p ·)

namespace Drops

variable {parent : NodeId} {ns ns' : List NodeId} {h h₁ h' : Host}

theorem none (parent : NodeId) (h : Host) : Drops parent [] h h :=
  ⟨.none (.refl h), fun _ => rfl, fun _ => by simp, fun _ => rfl, rfl, (List.append_nil _).symm⟩

theorem one (n : NodeId) (h : Host) : Drops parent [n] h (h.removeChild parent n) := by
  have hsame := SameLinks.dropChild h parent n
  refine ⟨.one n h, fun m => (SameContents.removeChild h parent n).content m, fun m => ?_, fun m => ?_, rfl,
    calls_record _ _⟩
  · rw [removeChild, (SameLinks.record _ _).parent]
    by_cases hlt : n.index < (h.dropChild parent n).count
    · rw [parent_setParent _ _ _ _ hlt, hsame.parent]
      simp only [List.mem_singleton]
    · have hgone : (h.dropChild parent n).parent n = Option.none := parent_of_count_le (Nat.le_of_not_lt hlt)
      have hkept : ((h.dropChild parent n).setParent n Option.none).parent m = (h.dropChild parent n).parent m := by
        rw [Host.parent, setParent, node_modify, if_neg fun hand => hlt hand.2]
        rfl
      rw [hkept]
      split
      next heq => rw [List.mem_singleton.mp heq, hgone]
      next => exact hsame.parent m
  · rw [removeChild, (SameLinks.record _ _).bound, bound_setParent, hsame.bound]

theorem trans (hfirst : Drops parent ns h h₁) (hsecond : Drops parent ns' h₁ h') : Drops parent (ns ++ ns') h h' where
  takes := hfirst.takes.trans hsecond.takes
  content n := (hsecond.content n).trans (hfirst.content n)
  parent n := by
    rw [hsecond.parent, hfirst.parent]
    by_cases hmem : n ∈ ns' <;> simp [hmem]
  bound n := (hsecond.bound n).trans (hfirst.bound n)
  targets := hsecond.targets.trans hfirst.targets
  calls := by rw [hsecond.calls, hfirst.calls, List.append_assoc, List.map_append]

/-- Nodes that are removed one by one. -/
theorem all (ns : List NodeId) (h : Host) : Drops parent ns h (ns.foldl (fun h n => h.removeChild parent n) h) := by
  induction ns generalizing h with
  | nil => exact .none parent h
  | cons n ns ih => exact (Drops.one n h).trans (ih _)

end Drops

end Parlance.Host
