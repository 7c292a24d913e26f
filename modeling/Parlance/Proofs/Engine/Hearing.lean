import Parlance.Host.Query
import Parlance.Proofs.Engine.Retention

/-! What the nodes of a host hear. Every `on` of a retained output is bound to the node that it is placed on, once and
with the handler and the extras of the latest pass, and to a node that is attached nothing else is bound: listeners
that are forgotten are only on elements that have been removed, and these are never attached again. -/

namespace Parlance

open Pass

variable {ω : Type}

/-- A host has changed, but no listeners have been bound, taken away or given something else to call, and of the nodes
that had been there before only foreign ones may stand under another parent. -/
structure Host.Spares (foreign : NodeId → Prop) (h h' : Host) : Prop where
  count : h.count ≤ h'.count
  parent : ∀ n, n.index < h.count → ¬ foreign n → h'.parent n = h.parent n ∨ h'.parent n = none
  bound : ∀ n, h'.bound n = h.bound n
  targets : h'.listeners = h.listeners

/-- Somebody else than the engine has been at work, on nodes that are foreign: these are known from a world, and new
ones are nodes that have been made meanwhile. -/
structure Passing (foreign : ω → NodeId → Prop) (h : Host) (w : ω) (h' : Host) (w' : ω) : Prop where
  spares : h.Spares (foreign w) h'
  made : ∀ n, foreign w' n → foreign w n ∨ h.count ≤ n.index ∧ n.index < h'.count

/-- Nodes that the engine has not made. Hooks may move these as they like, but no others, and they do nothing about
listeners. -/
structure Bystanders (b : Behaviour ω) where
  foreign : ω → NodeId → Prop
  acts : ∀ {w w'}, b.Acts w w' → ∀ n, foreign w' n → foreign w n
  hooks : ∀ {h w h' w'}, b.Hooks h w h' w' → Passing foreign h w h' w'

theorem Bystanders.keepsNodes {b : Behaviour ω} (B : Bystanders b) : b.KeepsNodes := fun hcall =>
  (B.hooks hcall).spares.count

/-- What of a post ties a node to others: an element to the node that it stands under, and a listener to the node that
it is bound to. -/
inductive Tie where
  | element (q n : NodeId)
  | listener (q : NodeId) (id : ListenerId) (lexem : Lexem)

def Post.tie? (post : Post) : Option Tie :=
  match post.mark with
  | .element n => some (.element post.node n)
  | .listener id => some (.listener post.node id post.lexem)
  | _ => none

/-- The listener of a tie on a node, with its event. -/
def Tie.boundTo (n : NodeId) : Tie → Option (ListenerId × String)
  | listener q id lexem => if q = n then some (id, (lexem.arg 0).toText) else none
  | element _ _ => none

def Tie.listener? : Tie → Option ListenerId
  | listener _ id _ => some id
  | element _ _ => none

def tiesOf (posts : List Post) : List Tie := posts.filterMap Post.tie?

def idsOf (ties : List Tie) : List ListenerId := ties.filterMap Tie.listener?

/-- The listeners of ties on a node, with their events. -/
def boundTo (n : NodeId) (ties : List Tie) : List (ListenerId × String) := ties.filterMap (Tie.boundTo n)

section Ties

variable {posts posts' : List Post} {ties ties' : List Tie} {post : Post} {n m q : NodeId} {id : ListenerId} {lexem : Lexem}

@[simp] theorem tiesOf_append : tiesOf (posts ++ posts') = tiesOf posts ++ tiesOf posts' := List.filterMap_append

theorem tiesOf_cons : tiesOf (post :: posts) = post.tie?.toList ++ tiesOf posts := by
  cases h : post.tie? <;> simp [tiesOf, h]

@[simp] theorem boundTo_append : boundTo n (ties ++ ties') = boundTo n ties ++ boundTo n ties' :=
  List.filterMap_append

@[simp] theorem boundTo_element : boundTo m (.element q n :: ties) = boundTo m ties := List.filterMap_cons_none rfl

theorem boundTo_listener : boundTo m (.listener q id lexem :: ties) =
    (if q = m then [(id, (lexem.arg 0).toText)] else []) ++ boundTo m ties := by
  by_cases h : q = m <;> simp [boundTo, Tie.boundTo, h]

@[simp] theorem idsOf_append : idsOf (ties ++ ties') = idsOf ties ++ idsOf ties' := List.filterMap_append

@[simp] theorem idsOf_element : idsOf (.element q n :: ties) = idsOf ties := List.filterMap_cons_none rfl

@[simp] theorem idsOf_listener : idsOf (.listener q id lexem :: ties) = id :: idsOf ties :=
  List.filterMap_cons_some rfl

/-- A post that is neither of an element nor of a listener ties nothing. -/
theorem tiesOf_at_quiet (h : post.tie? = none) : tiesOf (posts ++ post :: posts') = tiesOf (posts ++ posts') := by
  rw [tiesOf_append, tiesOf_cons, h, tiesOf_append]
  rfl

theorem tiesOf_at_element : tiesOf (posts ++ ⟨q, lexem, .element n⟩ :: posts') =
    tiesOf posts ++ .element q n :: tiesOf posts' := by
  rw [tiesOf_append, tiesOf_cons]
  rfl

theorem tiesOf_at_listener : tiesOf (posts ++ ⟨q, lexem, .listener id⟩ :: posts') =
    tiesOf posts ++ .listener q id lexem :: tiesOf posts' := by
  rw [tiesOf_append, tiesOf_cons]
  rfl

theorem mem_idsOf : id ∈ idsOf ties ↔ ∃ q lexem, .listener q id lexem ∈ ties := by
  rw [idsOf, List.mem_filterMap]
  constructor
  · rintro ⟨_ | ⟨q, id', lexem⟩, hmem, heq⟩
    · cases heq
    · cases heq
      exact ⟨q, lexem, hmem⟩
  · rintro ⟨q, lexem, hmem⟩
    exact ⟨_, hmem, rfl⟩

/-- A listener that is not among ties is not bound by them. -/
theorem boundTo_filter (h : id ∉ idsOf ties) : (boundTo n ties).filter (fun entry => decide (entry.1 ≠ id)) =
    boundTo n ties := by
  refine List.filter_eq_self.mpr fun entry hentry => decide_eq_true fun heq => h ?_
  obtain ⟨tie, htie, hbound⟩ := List.mem_filterMap.mp hentry
  cases tie with
  | element => cases hbound
  | listener q id' lexem =>
      obtain ⟨-, hentry⟩ := Option.ite_none_right_eq_some.mp hbound
      cases hentry
      exact mem_idsOf.mpr ⟨q, lexem, heq ▸ htie⟩

theorem mem_tiesOf_element : .element q n ∈ tiesOf posts ↔ ∃ post ∈ posts, post.node = q ∧ post.mark = .element n := by
  rw [tiesOf, List.mem_filterMap]
  refine exists_congr fun post => and_congr_right fun _ => ?_
  unfold Post.tie?
  cases post.mark <;> simp

theorem mem_tiesOf_listener : .listener q id lexem ∈ tiesOf posts ↔
    ∃ post ∈ posts, post.node = q ∧ post.mark = .listener id ∧ post.lexem = lexem := by
  rw [tiesOf, List.mem_filterMap]
  refine exists_congr fun post => and_congr_right fun _ => ?_
  unfold Post.tie?
  cases post.mark <;> simp [and_comm]

end Ties

section Heeding

variable {b : Behaviour ω} (B : Bystanders b) {ρ : Regime} {σ σ' : Stage ω} {posts posts' left right : List Post}
variable {ties : List Tie} {q n : NodeId} {lexem old : Lexem} {id : ListenerId}

/-- A node that the engine has made. -/
structure Made (σ : Stage ω) (n : NodeId) : Prop where
  lt : n.index < σ.host.count
  own : ¬ B.foreign σ.world n
  inner : n ≠ Host.root

/-- Nodes that have been removed, and what has stood under them. -/
def Lost (σ : Stage ω) (lost : NodeId → Prop) : Prop :=
  ∀ n, lost n → Made B σ n ∧ ∀ q, σ.host.parent n = some q → lost q

/-- Somebody else than the engine has been at work between two stages. -/
def Passes (σ σ' : Stage ω) : Prop := Passing B.foreign σ.host σ.world σ'.host σ'.world

/-- The listeners of the nodes that are not lost are those of the posts, and they call what their words say. -/
structure Heeded (σ : Stage ω) (ties : List Tie) : Prop where
  sound : ∀ n, B.foreign σ.world n → n.index < σ.host.count
  elements : ∀ q n, .element q n ∈ ties → Made B σ n ∧ (σ.host.parent n = some q ∨ σ.host.parent n = none)
  listeners : ∀ q id lexem, .listener q id lexem ∈ ties → q.index < σ.host.count ∧ 0 < id.number ∧
    ∃ l, lexem.listener = .ok l ∧ σ.host.listeners[id.number - 1]? = some l
  ids : (idsOf ties).Nodup
  bound : ∃ lost, Lost B σ lost ∧ ∀ n, ¬ lost n → (σ.host.bound n).Perm (boundTo n ties)

variable {B}

namespace Host.Spares

variable {foreign : NodeId → Prop} {h h' : Host} {parent : NodeId} {anchor : Option NodeId} {ns : List NodeId}

theorem refl (foreign : NodeId → Prop) (h : Host) : h.Spares foreign h :=
  ⟨Nat.le_refl _, fun _ _ _ => .inl rfl, fun _ => rfl, rfl⟩

theorem links (hcount : h'.count = h.count) (hlinks : SameLinks h h') : h.Spares foreign h' :=
  ⟨Nat.le_of_eq hcount.symm, fun n _ _ => .inl (hlinks.parent n), hlinks.bound, hlinks.targets⟩

theorem inscribes (hinscribes : Inscribes n h h') : h.Spares foreign h' :=
  .links hinscribes.tree.count hinscribes.links

theorem adds (hadds : Adds parent anchor h h') : h.Spares foreign h' where
  count := Nat.le_of_succ_le (Nat.le_of_eq hadds.puts.count.symm)
  parent n hn _ := .inl (by
    rw [hadds.parent, if_neg]
    rintro rfl
    exact Nat.lt_irrefl _ hn)
  bound := hadds.bound
  targets := hadds.targets

theorem drops (hdrops : Drops parent ns h h') : h.Spares foreign h' where
  count := Nat.le_of_eq hdrops.takes.count.symm
  parent n _ _ := by
    rw [hdrops.parent]
    split
    · exact .inr rfl
    · exact .inl rfl
  bound := hdrops.bound
  targets := hdrops.targets

end Host.Spares

namespace Passes

theorem onHost {h : Host} (hspares : σ.host.Spares (B.foreign σ.world) h) : Passes B σ (σ.onHost fun _ => h) :=
  ⟨hspares, fun _ hn => .inl hn⟩

theorem inWorld {w : ω} (hact : b.Acts σ.world w) : Passes B σ (σ.inWorld w) :=
  ⟨.refl _ _, fun n hn => .inl (B.acts hact n hn)⟩

theorem made (h : Passes B σ σ') (hn : Made B σ n) : Made B σ' n where
  lt := Nat.lt_of_lt_of_le hn.lt h.spares.count
  own hforeign := (Passing.made h n hforeign).elim hn.own fun hlate => absurd hn.lt (Nat.not_lt.mpr hlate.1)
  inner := hn.inner

/-- A made node stands where it has stood, or nowhere. -/
theorem parent (h : Passes B σ σ') (hn : Made B σ n) :
    σ'.host.parent n = σ.host.parent n ∨ σ'.host.parent n = none := h.spares.parent n hn.lt hn.own

theorem lost {lost : NodeId → Prop} (h : Passes B σ σ') (hlost : Lost B σ lost) : Lost B σ' lost := by
  intro n hn
  obtain ⟨hmade, hparent⟩ := hlost n hn
  refine ⟨h.made hmade, fun q hq => ?_⟩
  rcases h.parent hmade with heq | hnone
  · exact hparent q (heq ▸ hq)
  · rw [hnone] at hq
    cases hq

end Passes

namespace Heeded

theorem passes (h : Heeded B σ ties) (hpasses : Passes B σ σ') : Heeded B σ' ties where
  sound n hn := (Passing.made hpasses n hn).elim
    (fun hold => Nat.lt_of_lt_of_le (h.sound n hold) hpasses.spares.count) fun hlate => hlate.2
  elements q n hn := by
    obtain ⟨hmade, hparent⟩ := h.elements q n hn
    refine ⟨hpasses.made hmade, ?_⟩
    rcases hpasses.parent hmade with heq | hnone
    · rw [heq]
      exact hparent
    · exact .inr hnone
  listeners q id lexem hlistener := by
    obtain ⟨hq, hid, htarget⟩ := h.listeners q id lexem hlistener
    rw [hpasses.spares.targets]
    exact ⟨Nat.lt_of_lt_of_le hq hpasses.spares.count, hid, htarget⟩
  ids := h.ids
  bound := by
    obtain ⟨lost, hlost, hbound⟩ := h.bound
    exact ⟨lost, hpasses.lost hlost, fun n hn => by rw [hpasses.spares.bound]; exact hbound n hn⟩

/-- A new element is put where nothing is bound yet. -/
theorem raised {anchor : Option NodeId} {h' : Host} (h : Heeded B σ (tiesOf (left ++ right)))
    (hadds : Host.Adds q anchor σ.host h') (hq : q.index < σ.host.count) :
    Heeded B (σ.onHost fun _ => h') (tiesOf (left ++ ⟨q, lexem, .element σ.host.next⟩ :: right)) := by
  have hspared := h.passes (.onHost (.adds hadds))
  rw [tiesOf_append] at hspared
  rw [tiesOf_at_element]
  refine ⟨hspared.sound, fun q' n hn => ?_, fun q' id lexem hlistener => ?_, ?_, ?_⟩
  · rw [List.mem_append, List.mem_cons] at hn
    have hcases : Tie.element q' n = .element q σ.host.next ∨ .element q' n ∈ tiesOf left ++ tiesOf right := by
      rw [List.mem_append]
      tauto
    rcases hcases with heq | hold
    · cases heq
      refine ⟨⟨?_, fun hforeign => Nat.lt_irrefl _ (h.sound _ hforeign), fun hroot => ?_⟩, .inl ?_⟩
      · rw [Stage.onHost_host, hadds.puts.count]
        exact Nat.lt_succ_self _
      · have hzero : σ.host.count = 0 := congrArg NodeId.index hroot
        omega
      · rw [Stage.onHost_host, hadds.parent, if_pos rfl]
    · exact hspared.elements q' n hold
  · refine hspared.listeners q' id lexem ?_
    rw [List.mem_append, List.mem_cons] at hlistener
    rw [List.mem_append]
    rcases hlistener with hlistener | heq | hlistener
    · exact .inl hlistener
    · cases heq
    · exact .inr hlistener
  · have hids := hspared.ids
    simpa using hids
  · obtain ⟨lost, hlost, hbound⟩ := hspared.bound
    exact ⟨lost, hlost, fun n hn => by simpa using hbound n hn⟩

/-- An element that is removed is lost with everything inside it. -/
theorem dropped {inner : List Post} {h' : Host}
    (h : Heeded B σ (tiesOf (left ++ (inner ++ ⟨q, lexem, .element n⟩ :: right))))
    (hinner : ∀ post ∈ inner, post.node = n ∨ post.node ∈ elementsOf inner) (hdrops : Host.Drops q [n] σ.host h') :
    Heeded B (σ.onHost fun _ => h') (tiesOf (left ++ right)) := by
  have hpasses : Passes B σ (σ.onHost fun _ => h') := .onHost (.drops hdrops)
  have hspared := h.passes hpasses
  have hties : tiesOf (left ++ (inner ++ ⟨q, lexem, .element n⟩ :: right)) =
      tiesOf left ++ (tiesOf inner ++ .element q n :: tiesOf right) := by
    rw [tiesOf_append, tiesOf_at_element]
  rw [hties] at h hspared
  rw [tiesOf_append]
  have hsub : ∀ tie ∈ tiesOf left ++ tiesOf right, tie ∈ tiesOf left ++ (tiesOf inner ++ .element q n :: tiesOf right) := by
    simp only [List.mem_append, List.mem_cons]
    tauto
  refine ⟨hspared.sound, fun q' m hm => hspared.elements q' m (hsub _ hm),
    fun q' id lexem hlistener => hspared.listeners q' id lexem (hsub _ hlistener), ?_, ?_⟩
  · refine hspared.ids.sublist ?_
    rw [idsOf_append, idsOf_append, idsOf_append, idsOf_element]
    exact (List.Sublist.refl _).append (List.sublist_append_right _ _)
  · obtain ⟨lost, hlost, hbound⟩ := hspared.bound
    have hgone : ∀ m, m = n ∨ m ∈ elementsOf inner → Made B (σ.onHost fun _ => h') m ∧
        ∀ q', (σ.onHost fun _ => h').host.parent m = some q' → q' = n ∨ q' ∈ elementsOf inner := by
      intro m hm
      by_cases heq : m = n
      · subst heq
        refine ⟨(hspared.elements q m (by simp)).1, fun q' hq' => ?_⟩
        rw [Stage.onHost_host, hdrops.parent, if_pos List.mem_cons_self] at hq'
        cases hq'
      · obtain ⟨post, hpost, hmark⟩ := mem_elementsOf.mp (hm.resolve_left heq)
        have htie : .element post.node m ∈ tiesOf inner := mem_tiesOf_element.mpr ⟨post, hpost, rfl, hmark⟩
        obtain ⟨hmade, hparent⟩ := hspared.elements post.node m (by simp [htie])
        refine ⟨hmade, fun q' hq' => ?_⟩
        rcases hparent with hsome | hnone
        · rw [hsome, Option.some.injEq] at hq'
          exact hq' ▸ hinner post hpost
        · rw [hnone] at hq'
          cases hq'
    refine ⟨fun m => lost m ∨ m = n ∨ m ∈ elementsOf inner, fun m hm => ?_, fun m hm => ?_⟩
    · rcases hm with hm | hm
      · exact (hlost m hm).imp_right fun hparent q' hq' => .inl (hparent q' hq')
      · exact (hgone m hm).imp_right fun hparent q' hq' => .inr (hparent q' hq')
    · simp only [not_or] at hm
      have hnone : boundTo m (tiesOf inner) = [] := by
        rw [boundTo, List.filterMap_eq_nil_iff]
        rintro (⟨q', m'⟩ | ⟨q', id, word⟩) htie
        · rfl
        · obtain ⟨post, hpost, hnode, -, -⟩ := mem_tiesOf_listener.mp htie
          refine if_neg fun heq => ?_
          rcases hinner post hpost with hown | hown
          · exact hm.2.1 (by rw [← heq, ← hnode, hown])
          · exact hm.2.2 (by rwa [← heq, ← hnode])
      have hperm := hbound m hm.1
      rw [boundTo_append, boundTo_append, hnone, List.nil_append] at hperm
      rw [boundTo_append]
      simpa using hperm

/-- Listeners come and go, and nothing moves. -/
theorem relisten {ties' : List Tie} {h' : Host} (h : Heeded B σ ties) (hcount : h'.count = σ.host.count)
    (hparent : ∀ n, h'.parent n = σ.host.parent n) (helements : ∀ q n, .element q n ∈ ties' → .element q n ∈ ties)
    (hlisteners : ∀ q id lexem, .listener q id lexem ∈ ties' → q.index < σ.host.count ∧ 0 < id.number ∧
      ∃ l, lexem.listener = .ok l ∧ h'.listeners[id.number - 1]? = some l)
    (hids : (idsOf ties').Nodup)
    (hbound : ∀ n, (σ.host.bound n).Perm (boundTo n ties) → (h'.bound n).Perm (boundTo n ties')) :
    Heeded B (σ.onHost fun _ => h') ties' := by
  have hmade : ∀ {n}, Made B σ n → Made B (σ.onHost fun _ => h') n := fun hn =>
    ⟨by rw [Stage.onHost_host, hcount]; exact hn.lt, hn.own, hn.inner⟩
  refine ⟨fun n hn => ?_, fun q n hn => ?_, fun q id lexem hlistener => ?_, hids, ?_⟩
  · rw [Stage.onHost_host, hcount]
    exact h.sound n hn
  · rw [Stage.onHost_host, hparent]
    exact (h.elements q n (helements q n hn)).imp_left hmade
  · rw [Stage.onHost_host, hcount]
    exact hlisteners q id lexem hlistener
  · obtain ⟨lost, hlost, hperm⟩ := h.bound
    refine ⟨lost, fun n hn => ?_, fun n hn => hbound n (hperm n hn)⟩
    rw [Stage.onHost_host, hparent]
    exact (hlost n hn).imp_left hmade

/-- A listener has a number, and numbers that are given out later are higher. -/
theorem number_le (h : Heeded B σ ties) (hlistener : .listener q id lexem ∈ ties) :
    0 < id.number ∧ id.number ≤ σ.host.listeners.size := by
  obtain ⟨-, hpos, l, -, hget⟩ := h.listeners q id lexem hlistener
  have hlt : id.number - 1 < σ.host.listeners.size := (Array.getElem?_eq_some_iff.mp hget).1
  omega

/-- A word is bound to a node, with a listener of its own. -/
theorem bind {left right : List Tie} {event : String} {listener : Listener} (h : Heeded B σ (left ++ right))
    (hq : q.index < σ.host.count) (hevent : lexem.stringArg 0 = .ok event) (hlistener : lexem.listener = .ok listener) :
    Heeded B (σ.onHost fun h => (h.addListener q event listener).2)
      (left ++ .listener q (σ.host.addListener q event listener).1 lexem :: right) := by
  have hsplit : ∀ tie, tie ∈ left ++ .listener q (σ.host.addListener q event listener).1 lexem :: right →
      tie = .listener q (σ.host.addListener q event listener).1 lexem ∨ tie ∈ left ++ right := by
    simp only [List.mem_append, List.mem_cons]
    tauto
  have htargets : (σ.host.addListener q event listener).2.listeners = σ.host.listeners.push listener := rfl
  refine h.relisten (Host.SameTree.addListener σ.host q event listener).count
    (fun n => Host.parent_addListener σ.host event listener n) (fun q' n hn => ?_) (fun q' id word hword => ?_) ?_
    fun n hn => ?_
  · exact (hsplit _ hn).resolve_left nofun
  · rw [htargets]
    rcases hsplit _ hword with heq | hold
    · cases heq
      exact ⟨hq, Nat.succ_pos _, listener, hlistener, Array.getElem?_push_size⟩
    · obtain ⟨hq', hpos, l, hl, hget⟩ := h.listeners q' id word hold
      refine ⟨hq', hpos, l, hl, ?_⟩
      rw [Array.getElem?_push, if_neg (Nat.ne_of_lt (Array.getElem?_eq_some_iff.mp hget).1)]
      exact hget
  · have hfresh : (σ.host.addListener q event listener).1 ∉ idsOf (left ++ right) := by
      intro hmem
      obtain ⟨q', word, hword⟩ := mem_idsOf.mp hmem
      exact Nat.not_succ_le_self _ (h.number_le hword).2
    have hids := List.nodup_cons.mpr ⟨hfresh, h.ids⟩
    rw [idsOf_append] at hids
    rw [idsOf_append, idsOf_listener]
    exact (List.perm_middle.nodup_iff).mpr hids
  · rw [Host.bound_addListener σ.host event listener n hq, boundTo_append, boundTo_listener,
      Lexem.stringArg_ok.mp hevent]
    rw [boundTo_append] at hn
    by_cases heq : n = q
    · subst heq
      rw [if_pos rfl, if_pos rfl]
      exact (hn.append_right _).trans (List.perm_append_comm.trans (List.perm_append_comm_assoc _ _ _))
    · rw [if_neg heq, if_neg fun hback => heq hback.symm]
      exact hn

/-- A word takes the place of another one with the same event, and its listener calls something else. -/
theorem rebind {left right : List Tie} {event : String} {listener : Listener}
    (h : Heeded B σ (left ++ .listener q id old :: right)) (hevent : lexem.stringArg 0 = .ok event)
    (hold : old.stringArg 0 = .ok event) (hlistener : lexem.listener = .ok listener) :
    Heeded B (σ.onHost (·.rebind id listener)) (left ++ .listener q id lexem :: right) := by
  have hown : .listener q id old ∈ left ++ .listener q id old :: right := by simp
  have hids := h.ids
  rw [idsOf_append, idsOf_listener] at hids
  have hfresh : id ∉ idsOf left ++ idsOf right := (List.nodup_cons.mp (List.perm_middle.nodup_iff.mp hids)).1
  refine h.relisten (Host.SameTree.rebind σ.host id listener).count (fun _ => rfl) (fun q' n hn => ?_)
    (fun q' id' word hword => ?_) ?_ fun n hn => ?_
  · simpa using hn
  · have htargets : (σ.host.rebind id listener).listeners[id'.number - 1]? =
        if id.number - 1 = id'.number - 1 then (σ.host.listeners[id'.number - 1]?).map fun _ => listener
        else σ.host.listeners[id'.number - 1]? := Array.getElem?_modify ..
    rw [htargets]
    have hcases : Tie.listener q' id' word = .listener q id lexem ∨ .listener q' id' word ∈ left ++ right := by
      simp only [List.mem_append, List.mem_cons] at hword ⊢
      tauto
    rcases hcases with heq | hother
    · cases heq
      obtain ⟨hq, hpos, l, -, hget⟩ := h.listeners q id old hown
      refine ⟨hq, hpos, listener, hlistener, ?_⟩
      rw [if_pos rfl, hget]
      rfl
    · have hkept : .listener q' id' word ∈ left ++ .listener q id old :: right := by
        simp only [List.mem_append, List.mem_cons] at hother ⊢
        tauto
      have hmem : id' ∈ idsOf left ++ idsOf right := idsOf_append ▸ mem_idsOf.mpr ⟨q', word, hother⟩
      have hne : id.number - 1 ≠ id'.number - 1 := by
        have hpos := (h.number_le hown).1
        have hpos' := (h.number_le hkept).1
        intro heq
        refine hfresh ?_
        have hnumber : id = id' := congrArg ListenerId.mk (show id.number = id'.number by omega)
        exact hnumber ▸ hmem
      rw [if_neg hne]
      exact h.listeners q' id' word hkept
  · rw [idsOf_append, idsOf_listener]
    exact hids
  · rw [boundTo_append, boundTo_listener, Lexem.stringArg_ok.mp hold] at hn
    rw [boundTo_append, boundTo_listener, Lexem.stringArg_ok.mp hevent]
    exact hn

/-- A word is taken off its node. -/
theorem unbind {left right : List Tie} {event : String} (h : Heeded B σ (left ++ .listener q id lexem :: right)) :
    Heeded B (σ.onHost (·.removeListener q event id)) (left ++ right) := by
  have hsub : ∀ tie, tie ∈ left ++ right → tie ∈ left ++ .listener q id lexem :: right := by
    simp only [List.mem_append, List.mem_cons]
    tauto
  have hids := h.ids
  rw [idsOf_append, idsOf_listener] at hids
  obtain ⟨hfresh, hrest⟩ := List.nodup_cons.mp (List.perm_middle.nodup_iff.mp hids)
  refine h.relisten (Host.SameTree.removeListener σ.host q event id).count
    (fun n => Host.parent_removeListener σ.host event id n) (fun q' n hn => hsub _ hn)
    (fun q' id' word hword => h.listeners q' id' word (hsub _ hword)) ?_ fun n hn => ?_
  · rw [idsOf_append]
    exact hrest
  · rw [boundTo_append, boundTo_listener] at hn
    rw [Host.bound_removeListener, boundTo_append]
    by_cases heq : n = q
    · subst heq
      rw [List.mem_append, not_or] at hfresh
      rw [if_pos rfl] at hn ⊢
      have hfilter := hn.filter fun entry => decide (entry.1 ≠ id)
      rwa [List.filter_append, List.filter_append, boundTo_filter hfresh.1, boundTo_filter hfresh.2,
        List.filter_cons_of_neg (by simp), List.filter_nil, List.nil_append] at hfilter
    · rw [if_neg fun hback => heq hback.symm, List.nil_append] at hn
      rwa [if_neg heq]

end Heeded

/-- What nodes hear follows the posts, move by move. -/
theorem Move.heeded (hjudge : ∀ mark, ρ.judge mark ≠ none) (hmove : Move ρ b σ posts σ' posts')
    (h : Heeded B σ (tiesOf posts)) : Heeded B σ' (tiesOf posts') := by
  cases hmove with
  | acted hact => exact h.passes (.inWorld hact)
  | tabled t => exact h.passes (.onHost (.refl _ _))
  | @renamed left right q lexem old mark hloose =>
      cases mark with
      | nodes =>
          rw [tiesOf_at_quiet rfl] at h ⊢
          exact h
      | element =>
          rw [tiesOf_at_element] at h ⊢
          exact h
      | entries | listener | hook => exact absurd (hloose.resolve_left nofun) (hjudge _)
  | opened | closed =>
      rw [tiesOf_at_quiet rfl] at *
      exact h
  | put _ hadds =>
      rw [tiesOf_at_quiet rfl] at h ⊢
      exact h.passes (.onHost (.adds hadds))
  | taken hdrops =>
      rw [tiesOf_at_quiet rfl] at h ⊢
      exact h.passes (.onHost (.drops hdrops))
  | raised hq hadds => exact h.raised hadds hq
  | dropped hinner _ hdrops => exact h.dropped hinner hdrops
  | worded => exact h.passes (.onHost (.inscribes (.entry σ.host _ _ _ rfl)))
  | written =>
      rw [tiesOf_at_quiet rfl]
      exact h.passes (.onHost (.inscribes (.writeAll σ.host _ _)))
  | rewritten _ _ _ _ _ _ hrewrite =>
      rw [tiesOf_at_quiet rfl] at h ⊢
      exact h.passes (.onHost (.inscribes (rewrite_inscribes hrewrite σ.host)))
  | cleared =>
      rw [tiesOf_at_quiet rfl] at h
      exact h.passes (.onHost (.inscribes (Lexem.clear_inscribes _ _ σ.host)))
  | bound hq hevent hlistener =>
      rw [tiesOf_append] at h
      rw [tiesOf_at_listener]
      exact h.bind hq hevent hlistener
  | rebound hevent hold hlistener =>
      rw [tiesOf_at_listener] at h ⊢
      exact h.rebind hevent hold hlistener
  | unbound =>
      rw [tiesOf_at_listener] at h
      rw [tiesOf_append]
      exact h.unbind
  | hooked _ _ hcall =>
      rw [tiesOf_at_quiet rfl]
      exact h.passes (B.hooks (.render hcall))
  | rehooked _ _ _ hcall =>
      rw [tiesOf_at_quiet rfl] at h ⊢
      exact h.passes (B.hooks (.diff hcall))
  | unhooked _ _ hcall =>
      rw [tiesOf_at_quiet rfl] at h
      exact h.passes (B.hooks (.remove hcall))
  | shown hnone => exact absurd hnone (hjudge _)
  | forgotten hnone => exact absurd hnone (hjudge _)

end Heeding

end Parlance
