import Parlance.Proofs.Engine.Inscribing
import Parlance.Proofs.Host.Minding

/-! Calls that keep to a region. Whatever is out of their region is as it was: what a node shows, where it stands, which
children it has and in which order, and which listeners are bound to it. -/

namespace Parlance

/-- The nodes that a call makes, writes on, or moves, and those under which it puts something or from which it takes
something. The node before which something is put is left alone. -/
def Mutation.touched : Mutation → List NodeId
  | append p n | insertBefore p n _ | remove p n => [p, n]
  | insertRaw p _ => [p]
  | m => m.made?.toList ++ m.inscribed?.toList

theorem Mutation.touched_made {m : Mutation} {n : NodeId} (h : m.made? = some n) : m.touched = [n] := by
  cases m <;> cases h <;> rfl

theorem Mutation.touched_inscribed {m : Mutation} {n : NodeId} (h : m.inscribed? = some n) : m.touched = [n] := by
  cases m <;> cases h <;> rfl

/-- What calls may have to do with. -/
structure Region where
  /-- Nodes that may be put somewhere, taken away, or given another text. -/
  tops : NodeId → Prop
  /-- Nodes that may be touched in any way. -/
  nodes : NodeId → Prop
  nodes_of_tops : ∀ n, tops n → nodes n
  /-- Entries of nodes that may be changed. -/
  places : NodeId → Place → Prop
  /-- Listeners that may come, go, and be given something else to call, by their place on the host. -/
  listeners : Nat → Prop
  /-- Whether hooks may be called. -/
  hooks : Prop

/-- A region has what is still to come on a host. -/
structure Region.Open (S : Region) (h : Host) : Prop where
  tops : ∀ n, h.count ≤ n.index → S.tops n
  listeners : ∀ i, h.listeners.size ≤ i → S.listeners i

namespace Host

variable {S : Region} {h h₁ h' : Host} {n p : NodeId} {ns : List NodeId} {anchor : Option NodeId} {places : List Place}

/-- Everything that is out of a region is as it was. -/
structure Confined (S : Region) (h h' : Host) : Prop where
  count : h.count ≤ h'.count
  size : h.listeners.size ≤ h'.listeners.size
  calls : ∃ ms, h'.calls = h.calls ++ ms ∧ ∀ m ∈ ms, ∀ n ∈ m.touched, S.nodes n
  node : ∀ n, ¬ S.nodes n → h'.node n = h.node n
  stays : ∀ n, n.index < h.count → ¬ S.tops n → h'.parent n = h.parent n ∧ (h'.content n).kind = (h.content n).kind
  children : ∀ keep : List NodeId, (∀ n ∈ keep, ¬ S.tops n) → ∀ n,
    (h'.children n).filter (· ∈ keep) = (h.children n).filter (· ∈ keep)
  entries : ∀ n π, n.index < h.count → ¬ S.places n π → (h'.content n).stored π = (h.content n).stored π
  bound : ∀ keep : List ListenerId, (∀ id ∈ keep, ¬ S.listeners (id.number - 1)) → ∀ n,
    (h'.bound n).filter (·.1 ∈ keep) = (h.bound n).filter (·.1 ∈ keep)
  targets : ∀ i, ¬ S.listeners i → h'.listeners[i]? = h.listeners[i]?

/-- A node is as it was if it shows, stands, has and hears what it did. -/
theorem node_ext (hcontent : h'.content n = h.content n) (hparent : h'.parent n = h.parent n)
    (hchildren : h'.children n = h.children n) (hbound : h'.bound n = h.bound n) : h'.node n = h.node n := by
  unfold content at hcontent
  unfold Host.parent at hparent
  unfold children at hchildren
  unfold bound at hbound
  generalize h'.node n = x at *
  generalize h.node n = y at *
  cases x
  cases y
  congr

theorem content_addListener (h : Host) (n : NodeId) (event : String) (listener : Listener) (m : NodeId) :
    (h.addListener n event listener).2.content m = h.content m := by
  unfold addListener
  rw [content, content, node_record, node_modify]
  split <;> rfl

theorem content_removeListener (h : Host) (n : NodeId) (event : String) (id : ListenerId) (m : NodeId) :
    (h.removeListener n event id).content m = h.content m := by
  rw [removeListener, content, content, node_record, node_modify]
  split <;> rfl

namespace Confined

theorem refl (h : Host) : Confined S h h :=
  ⟨Nat.le_refl _, Nat.le_refl _, ⟨[], by simp⟩, fun _ _ => rfl, fun _ _ _ => ⟨rfl, rfl⟩, fun _ _ _ => rfl,
    fun _ _ _ _ => rfl, fun _ _ _ => rfl, fun _ _ => rfl⟩

theorem trans (hfirst : Confined S h h₁) (hsecond : Confined S h₁ h') : Confined S h h' where
  count := Nat.le_trans hfirst.count hsecond.count
  size := Nat.le_trans hfirst.size hsecond.size
  calls := by
    obtain ⟨ms, hcalls, hms⟩ := hfirst.calls
    obtain ⟨ms', hcalls', hms'⟩ := hsecond.calls
    exact ⟨ms ++ ms', by rw [hcalls', hcalls, List.append_assoc],
      fun m hm => (List.mem_append.mp hm).elim (hms m) (hms' m)⟩
  node n hn := (hsecond.node n hn).trans (hfirst.node n hn)
  stays n hlt hn := by
    obtain ⟨hparent, hkind⟩ := hfirst.stays n hlt hn
    obtain ⟨hparent', hkind'⟩ := hsecond.stays n (Nat.lt_of_lt_of_le hlt hfirst.count) hn
    exact ⟨hparent'.trans hparent, hkind'.trans hkind⟩
  children keep hkeep n := (hsecond.children keep hkeep n).trans (hfirst.children keep hkeep n)
  entries n π hlt hn :=
    (hsecond.entries n π (Nat.lt_of_lt_of_le hlt hfirst.count) hn).trans (hfirst.entries n π hlt hn)
  bound keep hkeep n := (hsecond.bound keep hkeep n).trans (hfirst.bound keep hkeep n)
  targets i hi := (hsecond.targets i hi).trans (hfirst.targets i hi)

/-- Something is written on a node. -/
theorem inscribes (hinscribes : Inscribes n h h') (hn : S.nodes n)
    (hkind : (h'.content n).kind = (h.content n).kind ∨ S.tops n)
    (hentries : ∀ π, ¬ S.places n π → (h'.content n).stored π = (h.content n).stored π) : Confined S h h' where
  count := Nat.le_of_eq hinscribes.tree.count.symm
  size := Nat.le_of_eq (congrArg Array.size hinscribes.links.targets.symm)
  calls := by
    obtain ⟨ms, hcalls, hms⟩ := hinscribes.calls
    refine ⟨ms, hcalls, fun m hm k hk => ?_⟩
    rw [Mutation.touched_inscribed (hms m hm), List.mem_singleton] at hk
    exact hk ▸ hn
  node m hm := node_ext (hinscribes.others m fun heq => hm (heq ▸ hn)) (hinscribes.links.parent m)
    (hinscribes.tree.children m) (hinscribes.links.bound m)
  stays m _ hm := by
    refine ⟨hinscribes.links.parent m, ?_⟩
    by_cases heq : m = n
    · subst heq
      exact hkind.resolve_right hm
    · rw [hinscribes.others m heq]
  children _ _ m := by rw [hinscribes.tree.children]
  entries m π _ hπ := by
    by_cases heq : m = n
    · subst heq
      exact hentries π hπ
    · rw [hinscribes.others m heq]
  bound _ _ m := by rw [hinscribes.links.bound]
  targets i _ := by rw [hinscribes.links.targets]

/-- A text is changed. -/
theorem worded (value : String) (hn : S.tops n) : Confined S h (h.setText n value) := by
  refine .inscribes (.entry h n _ _ rfl) (S.nodes_of_tops n hn) (.inr hn) fun π _ => ?_
  rw [setText, content, node_record, modifyContent, node_modify]
  split
  · cases π <;> rfl
  · rfl

/-- Entries are written and erased. -/
theorem strokes (hstrokes : Strokes n places h h') (hn : S.nodes n) (hplaces : ∀ π ∈ places, S.places n π) :
    Confined S h h' := by
  refine .inscribes hstrokes.inscribes hn (.inl ?_) fun π hπ => hstrokes.stored fun hmem => hπ (hplaces π hmem)
  have hmodify : ∀ (h : Host) (g : Content → Content) (m : Mutation), (∀ c, (g c).kind = c.kind) →
      (((h.modifyContent n g).record m).content n).kind = (h.content n).kind := by
    intro h g m hg
    rw [content, node_record, modifyContent, node_modify]
    split
    · exact hg _
    · rfl
  clear hplaces
  induction hstrokes with
  | refl => rfl
  | @write h _ w _ _ ih => cases w <;> exact ih.trans (hmodify h _ _ fun _ => rfl)
  | @erase h _ π _ _ ih => cases π <;> exact ih.trans (hmodify h _ _ fun _ => rfl)

theorem adds (hadds : Adds p anchor h h') (hp : S.nodes p) (hnext : S.tops h.next) : Confined S h h' where
  count := Nat.le_of_succ_le (Nat.le_of_eq hadds.puts.count.symm)
  size := Nat.le_of_eq (congrArg Array.size hadds.targets.symm)
  calls := by
    obtain ⟨ms, hcalls, hplacing⟩ := hadds.calls
    refine ⟨ms, hcalls, fun m hm k hk => ?_⟩
    have hmade := S.nodes_of_tops _ hnext
    cases hplacing with
    | append hfirst | insert hfirst =>
        simp only [List.mem_cons, List.not_mem_nil, or_false] at hm
        rcases hm with rfl | rfl
        · rw [Mutation.touched_made hfirst, List.mem_singleton] at hk
          exact hk ▸ hmade
        · simp only [Mutation.touched, List.mem_cons, List.not_mem_nil, or_false] at hk
          rcases hk with rfl | rfl
          · exact hp
          · exact hmade
    | raw =>
        obtain rfl := List.mem_singleton.mp hm
        exact List.mem_singleton.mp hk ▸ hp
  node m hm := by
    have hne : m ≠ h.next := fun heq => hm (heq ▸ S.nodes_of_tops _ hnext)
    refine node_ext (hadds.content m hne) ?_ ?_ (hadds.bound m)
    · rw [hadds.parent, if_neg hne]
    · rw [hadds.puts.children, if_neg]
      rintro rfl
      exact hm hp
  stays m _ hm := by
    have hne : m ≠ h.next := fun heq => hm (heq ▸ hnext)
    exact ⟨by rw [hadds.parent, if_neg hne], by rw [hadds.content m hne]⟩
  children keep hkeep m := by
    rw [hadds.puts.children]
    split
    · exact filter_putBefore fun hmem => hkeep _ hmem hnext
    · rfl
  entries m π hlt _ := by
    rw [hadds.content m]
    rintro rfl
    exact Nat.lt_irrefl _ hlt
  bound _ _ m := by rw [hadds.bound]
  targets i _ := by rw [hadds.targets]

theorem drops (hdrops : Drops p ns h h') (hp : S.nodes p) (hns : ∀ n ∈ ns, S.tops n) : Confined S h h' where
  count := Nat.le_of_eq hdrops.takes.count.symm
  size := Nat.le_of_eq (congrArg Array.size hdrops.targets.symm)
  calls := by
    refine ⟨_, hdrops.calls, fun m hm k hk => ?_⟩
    obtain ⟨n, hn, rfl⟩ := List.mem_map.mp hm
    simp only [Mutation.touched, List.mem_cons, List.not_mem_nil, or_false] at hk
    rcases hk with rfl | rfl
    · exact hp
    · exact S.nodes_of_tops _ (hns k hn)
  node m hm := by
    refine node_ext (hdrops.content m) ?_ ?_ (hdrops.bound m)
    · rw [hdrops.parent, if_neg fun hmem => hm (S.nodes_of_tops _ (hns m hmem))]
    · rw [hdrops.takes.children, if_neg]
      rintro rfl
      exact hm hp
  stays m _ hm := ⟨by rw [hdrops.parent, if_neg fun hmem => hm (hns m hmem)], by rw [hdrops.content]⟩
  children keep hkeep m := by
    rw [hdrops.takes.children]
    split
    · rw [List.filter_filter]
      refine List.filter_congr fun k _ => ?_
      by_cases hk : k ∈ ns
      · simp [show k ∉ keep from fun hmem => hkeep k hmem (hns k hk)]
      · simp [hk]
    · rfl
  entries m π _ _ := by rw [hdrops.content]
  bound _ _ m := by rw [hdrops.bound]
  targets i _ := by rw [hdrops.targets]

theorem binds (event : String) (listener : Listener) (hn : S.nodes n) (hlt : n.index < h.count)
    (hlast : S.listeners h.listeners.size) : Confined S h (h.addListener n event listener).2 where
  count := Nat.le_of_eq (SameTree.addListener h n event listener).count.symm
  size := Nat.le_of_lt (Nat.lt_of_lt_of_eq (Nat.lt_succ_self _) (Array.size_push _).symm)
  calls := by
    refine ⟨_, calls_record _ _, fun m hm k hk => ?_⟩
    obtain rfl := List.mem_singleton.mp hm
    exact List.mem_singleton.mp hk ▸ hn
  node m hm := by
    refine node_ext (content_addListener h n event listener m) (parent_addListener h event listener m)
      ((SameTree.addListener h n event listener).children m) ?_
    rw [bound_addListener h event listener m hlt, if_neg]
    rintro rfl
    exact hm hn
  stays m _ _ := ⟨parent_addListener h event listener m, by rw [content_addListener]⟩
  children _ _ m := by rw [(SameTree.addListener h n event listener).children]
  entries m π _ _ := by rw [content_addListener]
  bound keep hkeep m := by
    rw [bound_addListener h event listener m hlt]
    split
    · rw [List.filter_append, List.filter_cons_of_neg, List.filter_nil, List.append_nil]
      exact fun hmem => hkeep _ (of_decide_eq_true hmem) hlast
    · rfl
  targets i hi := by
    change (h.listeners.push listener)[i]? = _
    rw [Array.getElem?_push, if_neg fun heq => hi (by rw [heq]; exact hlast)]

theorem unbinds (event : String) (id : ListenerId) (hn : S.nodes n) (hid : S.listeners (id.number - 1)) :
    Confined S h (h.removeListener n event id) where
  count := Nat.le_of_eq (SameTree.removeListener h n event id).count.symm
  size := Nat.le_refl _
  calls := by
    refine ⟨_, calls_record _ _, fun m hm k hk => ?_⟩
    obtain rfl := List.mem_singleton.mp hm
    exact List.mem_singleton.mp hk ▸ hn
  node m hm := by
    refine node_ext (content_removeListener h n event id m) (parent_removeListener h event id m)
      ((SameTree.removeListener h n event id).children m) ?_
    rw [bound_removeListener h event id m, if_neg]
    rintro rfl
    exact hm hn
  stays m _ _ := ⟨parent_removeListener h event id m, by rw [content_removeListener]⟩
  children _ _ m := by rw [(SameTree.removeListener h n event id).children]
  entries m π _ _ := by rw [content_removeListener]
  bound keep hkeep m := by
    rw [bound_removeListener h event id m]
    split
    · rw [List.filter_filter]
      refine List.filter_congr fun k _ => ?_
      by_cases hk : k.1 = id
      · simp [show k.1 ∉ keep from fun hmem => hkeep _ hmem (hk ▸ hid)]
      · simp [hk]
    · rfl
  targets _ _ := rfl

theorem rebinds (id : ListenerId) (listener : Listener) (hid : S.listeners (id.number - 1)) :
    Confined S h (h.rebind id listener) where
  count := Nat.le_refl _
  size := Nat.le_of_eq Array.size_modify.symm
  calls := ⟨[], (List.append_nil _).symm, by simp⟩
  node _ _ := rfl
  stays _ _ _ := ⟨rfl, rfl⟩
  children _ _ _ := rfl
  entries _ _ _ _ := rfl
  bound _ _ _ := rfl
  targets i hi := by
    change (h.listeners.modify (id.number - 1) fun _ => listener)[i]? = _
    rw [Array.getElem?_modify, if_neg]
    rintro rfl
    exact hi hid

end Confined

end Host

end Parlance
