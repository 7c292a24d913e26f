import Parlance.Proofs.Host.Links

/-! Hosts that mirror each other. A node is shared by two hosts, whatever else is on them, and from some moment on the
same is done under it on both. Then what has been made since is the same, but for the names of nodes and listeners; it
looks the same and it sounds the same. -/

namespace Parlance

/-- Two hosts at the moment from which on the same is done to both, and the node under which it is done. -/
structure Mirror where
  host : Host
  image : Host
  root : NodeId
  inside : root.index < host.count
  within : root.index < image.count

namespace Mirror

variable (M : Mirror)

/-- What a node that has been made since is called on the other host. -/
def node (n : NodeId) : NodeId := if n = M.root then n else ⟨M.image.count + (n.index - M.host.count)⟩

def listener (id : ListenerId) : ListenerId := ⟨M.image.listeners.size + (id.number - M.host.listeners.size)⟩

def bind (l : ListenerId × String) : ListenerId × String := (M.listener l.1, l.2)

/-- What has been there before is only on the node that is shared. -/
def before {α : Type} (n : NodeId) (xs : List α) : List α := if n = M.root then xs else []

/-- A node that has been made since. -/
def Made (h : Host) (n : NodeId) : Prop := M.host.count ≤ n.index ∧ n.index < h.count

/-- A node under which something may be done. -/
def Open (h : Host) (n : NodeId) : Prop := n = M.root ∨ M.Made h n

/-- A node has a copy on the other host. -/
structure Copies (h h' : Host) (n : NodeId) : Prop where
  content : h'.content (M.node n) = h.content n
  children : ∃ ns, (∀ m ∈ ns, M.Made h m) ∧ h.children n = M.before n (M.host.children M.root) ++ ns ∧
    h'.children (M.node n) = M.before n (M.image.children M.root) ++ ns.map M.node
  bound : ∃ ls, (∀ l ∈ ls, M.host.listeners.size < l.1.number) ∧ h.bound n = M.before n (M.host.bound M.root) ++ ls ∧
    h'.bound (M.node n) = M.before n (M.image.bound M.root) ++ ls.map M.bind

/-- The same has been done to both hosts. -/
structure Reflects (h h' : Host) : Prop where
  count : ∃ made, h.count = M.host.count + made ∧ h'.count = M.image.count + made
  targets : ∃ new : List Listener, h.listeners.toList = M.host.listeners.toList ++ new ∧
    h'.listeners.toList = M.image.listeners.toList ++ new
  copies : ∀ n, M.Open h n → M.Copies h h' n

variable {M} {h h' h₁ h₁' : Host} {n m p : NodeId}

theorem node_root : M.node M.root = M.root := if_pos rfl

theorem before_root {α : Type} (xs : List α) : M.before M.root xs = xs := if_pos rfl

theorem Made.ne_root (hn : M.Made h n) : n ≠ M.root := by
  rintro rfl
  exact Nat.not_le.mpr M.inside hn.1

theorem Made.node (hn : M.Made h n) : M.node n = ⟨M.image.count + (n.index - M.host.count)⟩ := if_neg hn.ne_root

theorem Made.before {α : Type} (hn : M.Made h n) (xs : List α) : M.before n xs = [] := if_neg hn.ne_root

theorem Made.mono (hn : M.Made h n) (hcount : h.count ≤ h₁.count) : M.Made h₁ n :=
  ⟨hn.1, Nat.lt_of_lt_of_le hn.2 hcount⟩

theorem Open.mono (hn : M.Open h n) (hcount : h.count ≤ h₁.count) : M.Open h₁ n := hn.imp_right fun hn => hn.mono hcount

/-- Different nodes have different copies. -/
theorem node_injective (hn : M.Open h n) (hm : M.Open h m) (heq : M.node n = M.node m) : n = m := by
  have hroot : ∀ {n : NodeId}, M.Made h n → M.node n ≠ M.root := fun hn hback => by
    have hindex := congrArg NodeId.index (hn.node.symm.trans hback)
    have hwithin := M.within
    simp only at hindex
    omega
  rcases hn with rfl | hn <;> rcases hm with rfl | hm
  · rfl
  · exact absurd (heq.symm.trans node_root) (hroot hm)
  · exact absurd (heq.trans node_root) (hroot hn)
  · rw [hn.node, hm.node, NodeId.mk.injEq] at heq
    have hleft := hn.1
    have hright := hm.1
    exact NodeId.ext_index (by omega)

namespace Reflects

/-- Two hosts mirror each other at the beginning if the node that they share shows the same on both. -/
theorem start (hcontent : M.image.content M.root = M.host.content M.root) : M.Reflects M.host M.image where
  count := ⟨0, rfl, rfl⟩
  targets := ⟨[], by simp, by simp⟩
  copies n hn := by
    rcases hn with rfl | hn
    · exact ⟨by rw [node_root, hcontent], ⟨[], by simp, by simp [before_root], by simp [before_root, node_root]⟩,
        ⟨[], by simp, by simp [before_root], by simp [before_root, node_root]⟩⟩
    · exact absurd hn.2 (Nat.not_lt.mpr hn.1)

variable (hreflects : M.Reflects h h')

include hreflects

theorem count_le : M.host.count ≤ h.count ∧ M.image.count ≤ h'.count := by
  obtain ⟨made, hcount, hcount'⟩ := hreflects.count
  omega

theorem lt (hn : M.Open h n) : n.index < h.count := by
  rcases hn with rfl | hn
  · exact Nat.lt_of_lt_of_le M.inside hreflects.count_le.1
  · exact hn.2

theorem node_lt (hn : M.Open h n) : (M.node n).index < h'.count := by
  obtain ⟨made, hcount, hcount'⟩ := hreflects.count
  rcases hn with rfl | hn
  · rw [node_root]
    exact Nat.lt_of_lt_of_le M.within hreflects.count_le.2
  · have hlow := hn.1
    have hhigh := hn.2
    simp only [hn.node]
    omega

theorem made_next (hcount : h₁.count = h.count + 1) : M.Made h₁ h.next := by
  refine ⟨hreflects.count_le.1, ?_⟩
  rw [hcount]
  exact Nat.lt_succ_self _

/-- The next node is the copy of the next node. -/
theorem node_next : M.node h.next = h'.next := by
  obtain ⟨made, hcount, hcount'⟩ := hreflects.count
  have hne : h.next ≠ M.root := fun heq => by
    have hindex : h.count = M.root.index := congrArg NodeId.index heq
    have hinside := M.inside
    omega
  rw [Mirror.node, if_neg hne]
  exact NodeId.ext_index (by simp only [Host.next_index]; omega)

/-- The same node is put at the end of a node and of its copy. -/
theorem adds (hp : M.Open h p) (hadds : Host.Adds p none h h₁) (hadds' : Host.Adds (M.node p) none h' h₁')
    (hcontent : h₁'.content h'.next = h₁.content h.next) : M.Reflects h₁ h₁' := by
  have hcount := hadds.puts.count
  have hgrown : h.count ≤ h₁.count := Nat.le_of_succ_le (Nat.le_of_eq hcount.symm)
  have hnew : M.Made h₁ h.next := hreflects.made_next hcount
  have hold : ∀ {n}, M.Open h n → n ≠ h.next := by
    rintro n hn rfl
    exact Nat.lt_irrefl _ (hreflects.lt hn)
  refine ⟨?_, ?_, fun n hn => ?_⟩
  · obtain ⟨made, hmade, hmade'⟩ := hreflects.count
    exact ⟨made + 1, by rw [hcount, hmade, Nat.add_assoc], by rw [hadds'.puts.count, hmade', Nat.add_assoc]⟩
  · rw [hadds.targets, hadds'.targets]
    exact hreflects.targets
  · by_cases hnext : n = h.next
    · subst hnext
      have hnode := hreflects.node_next
      have hempty : h.children h.next = [] := h.children_of_count_le (Nat.le_of_eq (Host.next_index h).symm)
      have hempty' : h'.children h'.next = [] := h'.children_of_count_le (Nat.le_of_eq (Host.next_index h').symm)
      have hapart : M.node p ≠ h'.next := fun heq => Nat.lt_irrefl _ (heq ▸ hreflects.node_lt hp)
      refine ⟨by rw [hnode, hcontent], ⟨[], by simp, ?_, ?_⟩, ⟨[], by simp, ?_, ?_⟩⟩
      · rw [hadds.puts.children, if_neg (hold hp).symm, hempty, hnew.before, List.append_nil]
      · rw [hnode, hadds'.puts.children, if_neg hapart.symm, hempty', hnew.before]
        rfl
      · rw [hadds.bound, Host.bound_of_count_le (Nat.le_of_eq (Host.next_index h).symm), hnew.before, List.append_nil]
      · rw [hnode, hadds'.bound, Host.bound_of_count_le (Nat.le_of_eq (Host.next_index h').symm), hnew.before]
        rfl
    · have hn : M.Open h n := hn.imp_right fun hn => ⟨hn.1, by
        have hne : n.index ≠ h.count := fun heq => hnext (NodeId.ext_index heq)
        have hlt := hn.2
        omega⟩
      have hnode : M.node n ≠ h'.next := fun heq => Nat.lt_irrefl _ (heq ▸ hreflects.node_lt hn)
      obtain ⟨hsame, ⟨ns, hns, hchildren, hchildren'⟩, ls, hls, hbound, hbound'⟩ := hreflects.copies n hn
      refine ⟨by rw [hadds'.content _ hnode, hsame, hadds.content _ hnext], ?_, ls, hls, ?_, ?_⟩
      · by_cases heq : n = p
        · subst heq
          refine ⟨ns ++ [h.next], fun m hm => ?_, ?_, ?_⟩
          · rcases List.mem_append.mp hm with hm | hm
            · exact (hns m hm).mono hgrown
            · rw [List.mem_singleton.mp hm]
              exact hnew
          · rw [hadds.puts.children, if_pos rfl, hchildren]
            exact List.append_assoc ..
          · rw [hadds'.puts.children, if_pos rfl, hchildren', List.map_append, ← hreflects.node_next]
            exact List.append_assoc ..
        · have hne : M.node n ≠ M.node p := fun hback => heq (node_injective hn hp hback)
          refine ⟨ns, fun m hm => (hns m hm).mono hgrown, ?_, ?_⟩
          · rw [hadds.puts.children, if_neg heq, hchildren]
          · rw [hadds'.puts.children, if_neg hne, hchildren']
      · rw [hadds.bound, hbound]
      · rw [hadds'.bound, hbound']

/-- A node and its copy come to show the same. -/
theorem inscribes (hp : M.Open h p) (hinscribes : Host.Inscribes p h h₁)
    (hinscribes' : Host.Inscribes (M.node p) h' h₁') (hcontent : h₁'.content (M.node p) = h₁.content p) :
    M.Reflects h₁ h₁' := by
  have hcount := hinscribes.tree.count
  have hback : ∀ {n}, M.Made h₁ n → M.Made h n := fun hn => hn.mono (Nat.le_of_eq hcount)
  refine ⟨?_, ?_, fun n hn => ?_⟩
  · rw [hcount, hinscribes'.tree.count]
    exact hreflects.count
  · rw [hinscribes.links.targets, hinscribes'.links.targets]
    exact hreflects.targets
  · have hn : M.Open h n := hn.imp_right hback
    obtain ⟨hsame, ⟨ns, hns, hchildren, hchildren'⟩, ls, hls, hbound, hbound'⟩ := hreflects.copies n hn
    refine ⟨?_, ⟨ns, fun m hm => (hns m hm).mono (Nat.le_of_eq hcount.symm), ?_, ?_⟩, ls, hls, ?_, ?_⟩
    · by_cases heq : n = p
      · rw [heq, hcontent]
      · rw [hinscribes.others n heq, hinscribes'.others _ fun hback => heq (node_injective hn hp hback), hsame]
    · rw [hinscribes.tree.children, hchildren]
    · rw [hinscribes'.tree.children, hchildren']
    · rw [hinscribes.links.bound, hbound]
    · rw [hinscribes'.links.bound, hbound']

/-- The next listener is the copy of the next listener. -/
theorem listener_next (p q : NodeId) (event : String) (listener : Listener) :
    M.listener (h.addListener p event listener).1 = (h'.addListener q event listener).1 ∧
      M.host.listeners.size < (h.addListener p event listener).1.number := by
  obtain ⟨new, hnew, hnew'⟩ := hreflects.targets
  have hsize := congrArg List.length hnew
  have hsize' := congrArg List.length hnew'
  simp only [Array.length_toList, List.length_append] at hsize hsize'
  have hnumber : (h.addListener p event listener).1.number = h.listeners.size + 1 := rfl
  refine ⟨?_, by rw [hnumber]; omega⟩
  unfold Mirror.listener
  rw [hnumber, show h.listeners.size + 1 - M.host.listeners.size = new.length + 1 by omega, ← Nat.add_assoc, ← hsize']
  rfl

/-- The same is bound to a node and to its copy. -/
theorem addListener (hp : M.Open h p) (event : String) (listener : Listener) :
    M.Reflects (h.addListener p event listener).2 (h'.addListener (M.node p) event listener).2 := by
  have hcount := (Host.SameTree.addListener h p event listener).count
  have hcount' := (Host.SameTree.addListener h' (M.node p) event listener).count
  refine ⟨?_, ?_, fun n hn => ?_⟩
  · rw [hcount, hcount']
    exact hreflects.count
  · obtain ⟨new, hnew, hnew'⟩ := hreflects.targets
    refine ⟨new ++ [listener], ?_, ?_⟩
    · rw [← List.append_assoc, ← hnew]
      exact Array.toList_push
    · rw [← List.append_assoc, ← hnew']
      exact Array.toList_push
  · have hn : M.Open h n := hn.mono (Nat.le_of_eq hcount)
    obtain ⟨hsame, ⟨ns, hns, hchildren, hchildren'⟩, ls, hls, hbound, hbound'⟩ := hreflects.copies n hn
    refine ⟨?_, ⟨ns, fun m hm => (hns m hm).mono (Nat.le_of_eq hcount.symm), ?_, ?_⟩, ?_⟩
    · rw [(Host.SameContents.addListener h' (M.node p) event listener).content,
        (Host.SameContents.addListener h p event listener).content, hsame]
    · rw [(Host.SameTree.addListener h p event listener).children, hchildren]
    · rw [(Host.SameTree.addListener h' (M.node p) event listener).children, hchildren']
    · obtain ⟨hnext, hlate⟩ := hreflects.listener_next p (M.node p) event listener
      rw [Host.bound_addListener h event listener n (hreflects.lt hp),
        Host.bound_addListener h' event listener _ (hreflects.node_lt hp)]
      by_cases heq : n = p
      · subst heq
        refine ⟨ls ++ [((h.addListener n event listener).1, event)], fun l hl => ?_, ?_, ?_⟩
        · rcases List.mem_append.mp hl with hl | hl
          · exact hls l hl
          · rw [List.mem_singleton.mp hl]
            exact hlate
        · rw [if_pos rfl, hbound, List.append_assoc]
        · rw [if_pos rfl, hbound', List.map_append, List.append_assoc, ← hnext]
          rfl
      · rw [if_neg heq, if_neg fun hback => heq (node_injective hn hp hback)]
        exact ⟨ls, hls, hbound, hbound'⟩

end Reflects

end Mirror

namespace Host

/-- What an event calls of listeners. -/
def calledBy (h : Host) (ls : List (ListenerId × String)) (event : String) : List Listener :=
  (ls.filter (·.2 = event)).filterMap fun l => h.listeners[l.1.number - 1]?

theorem heard_eq (h : Host) (n : NodeId) (event : String) : h.heard n event = h.calledBy (h.bound n) event := rfl

theorem calledBy_append (h : Host) (ls ls' : List (ListenerId × String)) (event : String) :
    h.calledBy (ls ++ ls') event = h.calledBy ls event ++ h.calledBy ls' event := by
  rw [calledBy, List.filter_append, List.filterMap_append]
  rfl

/-- Two nodes look the same and sound the same, down to a depth. -/
def Matches (h h' : Host) : Nat → NodeId → NodeId → Prop
  | 0, n, n' => h.content n = h'.content n' ∧ ∀ event, h.heard n event = h'.heard n' event
  | depth + 1, n, n' => (h.content n = h'.content n' ∧ ∀ event, h.heard n event = h'.heard n' event) ∧
      List.Forall₂ (h.Matches h' depth) (h.children n) (h'.children n')

end Host

namespace Mirror.Reflects

variable {M : Mirror} {h h' : Host} {n : NodeId}

/-- What has been bound since calls the same. -/
theorem calledBy (hreflects : M.Reflects h h') {ls : List (ListenerId × String)}
    (hls : ∀ l ∈ ls, M.host.listeners.size < l.1.number) (event : String) :
    h'.calledBy (ls.map M.bind) event = h.calledBy ls event := by
  obtain ⟨new, hnew, hnew'⟩ := hreflects.targets
  induction ls with
  | nil => rfl
  | cons l ls ih =>
      have hl := hls l List.mem_cons_self
      have htarget : h'.listeners[(M.bind l).1.number - 1]? = h.listeners[l.1.number - 1]? := by
        have hindex : (M.bind l).1.number - 1 = M.image.listeners.size + (l.1.number - 1 - M.host.listeners.size) := by
          simp only [Mirror.bind, Mirror.listener]
          omega
        rw [← Array.getElem?_toList, ← Array.getElem?_toList, hnew, hnew', hindex,
          List.getElem?_append_right (by simp), List.getElem?_append_right (by simp; omega)]
        simp
      have hrest := ih fun l' hl' => hls l' (List.mem_cons_of_mem _ hl')
      by_cases hevent : l.2 = event
      · simp only [Host.calledBy, List.map_cons, List.filter_cons, Mirror.bind, hevent, decide_true, if_true,
          List.filterMap_cons] at hrest htarget ⊢
        rw [htarget, hrest]
      · simpa only [Host.calledBy, List.map_cons, List.filter_cons, Mirror.bind, hevent, decide_false, if_false,
          Bool.false_eq_true] using hrest

/-- What was bound before calls what it called before, on either host. -/
theorem calledBy_before (hreflects : M.Reflects h h') (event : String) :
    (∀ ls : List (ListenerId × String), (∀ l ∈ ls, 0 < l.1.number ∧ l.1.number ≤ M.host.listeners.size) →
      h.calledBy ls event = M.host.calledBy ls event) ∧
    ∀ ls : List (ListenerId × String), (∀ l ∈ ls, 0 < l.1.number ∧ l.1.number ≤ M.image.listeners.size) →
      h'.calledBy ls event = M.image.calledBy ls event := by
  have hsame : ∀ {host host₁ : Host} {new : List Listener}, host₁.listeners.toList = host.listeners.toList ++ new →
      ∀ ls : List (ListenerId × String), (∀ l ∈ ls, 0 < l.1.number ∧ l.1.number ≤ host.listeners.size) →
        host₁.calledBy ls event = host.calledBy ls event := by
    intro host host₁ new hnew ls hls
    refine List.filterMap_congr fun l hl => ?_
    have hissued := hls l (List.mem_filter.mp hl).1
    rw [← Array.getElem?_toList, ← Array.getElem?_toList, hnew, List.getElem?_append_left]
    rw [Array.length_toList]
    omega
  obtain ⟨new, hnew, hnew'⟩ := hreflects.targets
  exact ⟨hsame hnew, hsame hnew'⟩

/-- A node that has been made since looks and sounds like its copy. -/
theorem copy_same (hreflects : M.Reflects h h') (hn : M.Made h n) :
    h.content n = h'.content (M.node n) ∧ ∀ event, h.heard n event = h'.heard (M.node n) event := by
  obtain ⟨hcontent, -, ls, hls, hbound, hbound'⟩ := hreflects.copies n (.inr hn)
  rw [hn.before, List.nil_append] at hbound hbound'
  refine ⟨hcontent.symm, fun event => ?_⟩
  rw [Host.heard_eq, Host.heard_eq, hbound, hbound', hreflects.calledBy hls]

/-- So does everything under it. -/
theorem matches_copy (hreflects : M.Reflects h h') (depth : Nat) (hn : M.Made h n) :
    h.Matches h' depth n (M.node n) := by
  induction depth generalizing n with
  | zero => exact hreflects.copy_same hn
  | succ depth ih =>
      refine ⟨hreflects.copy_same hn, ?_⟩
      obtain ⟨ns, hns, hchildren, hchildren'⟩ := (hreflects.copies n (.inr hn)).children
      rw [hn.before, List.nil_append] at hchildren hchildren'
      rw [hchildren, hchildren', List.forall₂_map_right_iff, List.forall₂_same]
      exact fun m hm => ih (hns m hm)

end Mirror.Reflects

end Parlance
