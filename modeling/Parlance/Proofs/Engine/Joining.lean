import Parlance.Proofs.Engine.Listening
import Parlance.Proofs.Host.Issuing

/-! Listeners that join others. What was bound to a node before an output is made stays bound to it; beside it stands,
for every `on` of the output that is placed on the node, one listener more, with its handler and its extras. -/

namespace Parlance

open Pass

variable {ω : Type} {b : Behaviour ω} {ρ : Regime}

/-- Hooks do nothing about listeners. -/
def Behaviour.Deaf (b : Behaviour ω) : Prop :=
  ∀ {h w h' w'}, b.Hooks h w h' w' →
    h.count ≤ h'.count ∧ (∀ n, h'.bound n = h.bound n) ∧ h'.listeners = h.listeners

/-- Beside what was there before, the ties of an output are what is bound to a node. -/
structure Joined (n : NodeId) (base : List (ListenerId × String)) (given : Nat) (h : Host) (ties : List Tie) : Prop where
  inside : n.index < h.count
  size : given ≤ h.listeners.size
  elements : ∀ q m, .element q m ∈ ties → m ≠ n
  listeners : ∀ q id lexem, .listener q id lexem ∈ ties → given < id.number ∧ ∃ l, lexem.listener = .ok l ∧
    h.listeners[id.number - 1]? = some l
  ids : (idsOf ties).Nodup
  bound : (h.bound n).Perm (base ++ boundTo n ties)

namespace Joined

variable {n q : NodeId} {base : List (ListenerId × String)} {given : Nat} {h h' : Host} {left right ties : List Tie}
variable {lexem old : Lexem} {id : ListenerId} {event : String} {listener : Listener}

/-- Nothing has happened to listeners. -/
theorem still (hjoined : Joined n base given h ties) (hcount : h.count ≤ h'.count)
    (hbound : ∀ m, h'.bound m = h.bound m) (htargets : h'.listeners = h.listeners) : Joined n base given h' ties where
  inside := Nat.lt_of_lt_of_le hjoined.inside hcount
  size := htargets ▸ hjoined.size
  elements := hjoined.elements
  listeners := htargets ▸ hjoined.listeners
  ids := hjoined.ids
  bound := hbound n ▸ hjoined.bound

theorem links (hjoined : Joined n base given h ties) (hcount : h'.count = h.count) (hlinks : Host.SameLinks h h') :
    Joined n base given h' ties := hjoined.still (Nat.le_of_eq hcount.symm) hlinks.bound hlinks.targets

theorem inscribes (hjoined : Joined n base given h ties) (hinscribes : Host.Inscribes q h h') :
    Joined n base given h' ties := hjoined.links hinscribes.tree.count hinscribes.links

theorem adds {anchor : Option NodeId} (hjoined : Joined n base given h ties) (hadds : Host.Adds q anchor h h') :
    Joined n base given h' ties :=
  hjoined.still (Nat.le_of_succ_le (Nat.le_of_eq hadds.puts.count.symm)) hadds.bound hadds.targets

theorem drops {ns : List NodeId} (hjoined : Joined n base given h ties) (hdrops : Host.Drops q ns h h') :
    Joined n base given h' ties := hjoined.still (Nat.le_of_eq hdrops.takes.count.symm) hdrops.bound hdrops.targets

/-- An element that is new is another node. -/
theorem raise (hjoined : Joined n base given h (left ++ right)) :
    Joined n base given h (left ++ .element q h.next :: right) where
  inside := hjoined.inside
  size := hjoined.size
  elements q' m hm := by
    rw [List.mem_append, List.mem_cons] at hm
    rcases hm with hm | heq | hm
    · exact hjoined.elements q' m (List.mem_append_left _ hm)
    · cases heq
      rintro rfl
      exact Nat.lt_irrefl _ hjoined.inside
    · exact hjoined.elements q' m (List.mem_append_right _ hm)
  listeners q' id lexem hlistener := by
    rw [List.mem_append, List.mem_cons] at hlistener
    refine hjoined.listeners q' id lexem ?_
    rw [List.mem_append]
    exact hlistener.imp_right (·.resolve_left nofun)
  ids := by simpa using hjoined.ids
  bound := by simpa using hjoined.bound

/-- What is bound to other nodes may be forgotten. -/
theorem forget {inner : List Tie} (hjoined : Joined n base given h (left ++ (inner ++ right)))
    (hinner : boundTo n inner = []) : Joined n base given h (left ++ right) := by
  have hsub : ∀ tie ∈ left ++ right, tie ∈ left ++ (inner ++ right) := by
    simp only [List.mem_append]
    tauto
  refine ⟨hjoined.inside, hjoined.size, fun q m hm => hjoined.elements q m (hsub _ hm),
    fun q id lexem hl => hjoined.listeners q id lexem (hsub _ hl), hjoined.ids.sublist ?_, ?_⟩
  · rw [idsOf_append, idsOf_append, idsOf_append]
    exact (List.Sublist.refl _).append (List.sublist_append_right _ _)
  · have hbound := hjoined.bound
    rw [boundTo_append, boundTo_append, hinner, List.nil_append] at hbound
    rwa [boundTo_append]

/-- A listener joins the others. -/
theorem bind (hjoined : Joined n base given h (left ++ right)) (hq : q.index < h.count)
    (hevent : lexem.stringArg 0 = .ok event) (hlistener : lexem.listener = .ok listener) :
    Joined n base given (h.addListener q event listener).2
      (left ++ .listener q (h.addListener q event listener).1 lexem :: right) := by
  have hsplit : ∀ tie, tie ∈ left ++ .listener q (h.addListener q event listener).1 lexem :: right →
      tie = .listener q (h.addListener q event listener).1 lexem ∨ tie ∈ left ++ right := by
    simp only [List.mem_append, List.mem_cons]
    tauto
  have htargets : (h.addListener q event listener).2.listeners = h.listeners.push listener := rfl
  have hnumber : (h.addListener q event listener).1.number = h.listeners.size + 1 := rfl
  have hsize := hjoined.size
  refine ⟨(Host.SameTree.addListener h q event listener).count.symm ▸ hjoined.inside, ?_, fun q' m hm => ?_,
    fun q' id word hword => ?_, ?_, ?_⟩
  · rw [htargets, Array.size_push]
    exact Nat.le_succ_of_le hsize
  · exact hjoined.elements q' m ((hsplit _ hm).resolve_left nofun)
  · rw [htargets]
    rcases hsplit _ hword with heq | hold
    · cases heq
      exact ⟨by omega, listener, hlistener, Array.getElem?_push_size⟩
    · obtain ⟨hlate, l, hl, hget⟩ := hjoined.listeners q' id word hold
      refine ⟨hlate, l, hl, ?_⟩
      rw [Array.getElem?_push, if_neg (Nat.ne_of_lt (Array.getElem?_eq_some_iff.mp hget).1)]
      exact hget
  · have hfresh : (h.addListener q event listener).1 ∉ idsOf (left ++ right) := by
      intro hmem
      obtain ⟨q', word, hword⟩ := mem_idsOf.mp hmem
      obtain ⟨-, l, -, hget⟩ := hjoined.listeners _ _ _ hword
      have hlt := (Array.getElem?_eq_some_iff.mp hget).1
      omega
    have hids := List.nodup_cons.mpr ⟨hfresh, hjoined.ids⟩
    rw [idsOf_append] at hids
    rw [idsOf_append, idsOf_listener]
    exact List.perm_middle.nodup_iff.mpr hids
  · have hbound := hjoined.bound
    rw [boundTo_append] at hbound
    rw [Host.bound_addListener h event listener n hq, boundTo_append, boundTo_listener, Lexem.stringArg_ok.mp hevent]
    by_cases heq : n = q
    · subst heq
      rw [if_pos rfl, if_pos rfl]
      refine (hbound.append_right _).trans ?_
      rw [List.append_assoc, List.append_assoc]
      exact (List.Perm.refl base).append ((List.Perm.refl _).append List.perm_append_comm)
    · rw [if_neg heq, if_neg fun hback => heq hback.symm]
      exact hbound

/-- A listener calls something else, as another word with the same event takes over. -/
theorem rebind (hjoined : Joined n base given h (left ++ .listener q id old :: right))
    (hevent : lexem.stringArg 0 = .ok event) (hold : old.stringArg 0 = .ok event)
    (hlistener : lexem.listener = .ok listener) :
    Joined n base given (h.rebind id listener) (left ++ .listener q id lexem :: right) := by
  have hids := hjoined.ids
  rw [idsOf_append, idsOf_listener] at hids
  have hfresh : id ∉ idsOf left ++ idsOf right := (List.nodup_cons.mp (List.perm_middle.nodup_iff.mp hids)).1
  obtain ⟨hlate, l, -, hget⟩ := hjoined.listeners q id old (by simp)
  refine ⟨hjoined.inside, ?_, fun q' m hm => hjoined.elements q' m (by simpa using hm), fun q' id' word hword => ?_,
    by rwa [idsOf_append, idsOf_listener], ?_⟩
  · rw [Host.rebind, Array.size_modify]
    exact hjoined.size
  · have htargets : (h.rebind id listener).listeners[id'.number - 1]? =
        if id.number - 1 = id'.number - 1 then (h.listeners[id'.number - 1]?).map fun _ => listener
        else h.listeners[id'.number - 1]? := Array.getElem?_modify ..
    rw [htargets]
    have hcases : Tie.listener q' id' word = .listener q id lexem ∨ .listener q' id' word ∈ left ++ right := by
      simp only [List.mem_append, List.mem_cons] at hword ⊢
      tauto
    rcases hcases with heq | hother
    · cases heq
      refine ⟨hlate, listener, hlistener, ?_⟩
      rw [if_pos rfl, hget]
      rfl
    · have hkept : .listener q' id' word ∈ left ++ .listener q id old :: right := by
        simp only [List.mem_append, List.mem_cons] at hother ⊢
        tauto
      obtain ⟨hlate', hrest⟩ := hjoined.listeners q' id' word hkept
      have hne : id.number - 1 ≠ id'.number - 1 := fun heq => by
        have hnumber : id = id' := congrArg ListenerId.mk (show id.number = id'.number by omega)
        exact hfresh (hnumber ▸ idsOf_append ▸ mem_idsOf.mpr ⟨q', word, hother⟩)
      rw [if_neg hne]
      exact ⟨hlate', hrest⟩
  · have hbound := hjoined.bound
    rw [boundTo_append, boundTo_listener, Lexem.stringArg_ok.mp hold] at hbound
    rw [boundTo_append, boundTo_listener, Lexem.stringArg_ok.mp hevent]
    exact hbound

/-- A listener of the output leaves, and those that were there before stay. -/
theorem unbind (hbase : ∀ l ∈ base, l.1.number ≤ given)
    (hjoined : Joined n base given h (left ++ .listener q id lexem :: right)) :
    Joined n base given (h.removeListener q event id) (left ++ right) := by
  have hsub : ∀ tie, tie ∈ left ++ right → tie ∈ left ++ .listener q id lexem :: right := by
    simp only [List.mem_append, List.mem_cons]
    tauto
  have hids := hjoined.ids
  rw [idsOf_append, idsOf_listener] at hids
  obtain ⟨hfresh, hrest⟩ := List.nodup_cons.mp (List.perm_middle.nodup_iff.mp hids)
  have hlate := (hjoined.listeners q id lexem (by simp)).1
  refine ⟨(Host.SameTree.removeListener h q event id).count.symm ▸ hjoined.inside, hjoined.size,
    fun q' m hm => hjoined.elements q' m (hsub _ hm), fun q' id' word hl => hjoined.listeners q' id' word (hsub _ hl),
    by rwa [idsOf_append], ?_⟩
  have hbound := hjoined.bound
  rw [boundTo_append, boundTo_listener] at hbound
  rw [Host.bound_removeListener, boundTo_append]
  by_cases heq : n = q
  · subst heq
    rw [List.mem_append, not_or] at hfresh
    rw [if_pos rfl] at hbound ⊢
    have hfilter := hbound.filter fun entry => decide (entry.1 ≠ id)
    have hkept : base.filter (fun entry => decide (entry.1 ≠ id)) = base := by
      refine List.filter_eq_self.mpr fun l hl => decide_eq_true ?_
      rintro rfl
      exact absurd (hbase l hl) (Nat.not_le.mpr hlate)
    rwa [List.filter_append, hkept, List.filter_append, List.filter_append, boundTo_filter hfresh.1,
      boundTo_filter hfresh.2, List.filter_cons_of_neg (by simp), List.filter_nil, List.nil_append] at hfilter
  · rw [if_neg fun hback => heq hback.symm, List.nil_append] at hbound
    rwa [if_neg heq]

end Joined

/-- What is bound to a node follows the posts, move by move. -/
theorem Move.joined {n : NodeId} {base : List (ListenerId × String)} {given : Nat} {σ σ' : Stage ω}
    {posts posts' : List Post} (hdeaf : b.Deaf) (hjudge : ∀ mark, ρ.judge mark ≠ none)
    (hbase : ∀ l ∈ base, l.1.number ≤ given) (hmove : Move ρ b σ posts σ' posts')
    (hjoined : Joined n base given σ.host (tiesOf posts)) : Joined n base given σ'.host (tiesOf posts') := by
  have hhook : ∀ {h w}, b.Hooks σ.host σ.world h w → Joined n base given h (tiesOf posts) := fun hcall =>
    hjoined.still (hdeaf hcall).1 (hdeaf hcall).2.1 (hdeaf hcall).2.2
  cases hmove with
  | acted | tabled => exact hjoined
  | @renamed left right q lexem old mark hloose =>
      cases mark with
      | nodes =>
          rw [tiesOf_at_quiet rfl] at hjoined ⊢
          exact hjoined
      | element =>
          rw [tiesOf_at_element] at hjoined ⊢
          exact hjoined
      | entries | listener | hook => exact absurd (hloose.resolve_left nofun) (hjudge _)
  | opened | closed =>
      rw [tiesOf_at_quiet rfl] at *
      exact hjoined
  | put _ hadds =>
      rw [tiesOf_at_quiet rfl] at hjoined ⊢
      exact hjoined.adds hadds
  | taken hdrops =>
      rw [tiesOf_at_quiet rfl] at hjoined ⊢
      exact hjoined.drops hdrops
  | raised hq hadds =>
      rw [tiesOf_append] at hjoined
      rw [tiesOf_at_element]
      exact hjoined.raise.adds hadds
  | @dropped left inner right q m lexem h hinner _ hdrops =>
      have hties : tiesOf (left ++ (inner ++ ⟨q, lexem, .element m⟩ :: right)) =
          tiesOf left ++ ((tiesOf inner ++ [.element q m]) ++ tiesOf right) := by
        rw [tiesOf_append, tiesOf_at_element, List.append_assoc, List.singleton_append]
      rw [hties] at hjoined
      rw [tiesOf_append]
      refine (hjoined.forget ?_).drops hdrops
      rw [boundTo_append, boundTo_element, boundTo, boundTo, List.filterMap_nil, List.append_nil,
        List.filterMap_eq_nil_iff]
      rintro (⟨q', m'⟩ | ⟨q', id, word⟩) htie
      · rfl
      · obtain ⟨post, hpost, hnode, -, -⟩ := mem_tiesOf_listener.mp htie
        refine if_neg ?_
        rintro rfl
        rcases hinner post hpost with hown | hown
        · exact hjoined.elements q m (by simp) (hown.symm.trans hnode)
        · obtain ⟨post', hpost', hmark⟩ := mem_elementsOf.mp hown
          have htie' : .element post'.node post.node ∈ tiesOf inner :=
            mem_tiesOf_element.mpr ⟨post', hpost', rfl, hmark⟩
          exact hjoined.elements post'.node post.node (by simp [htie']) hnode
  | worded => exact hjoined.inscribes (.entry σ.host _ _ _ rfl)
  | written =>
      rw [tiesOf_at_quiet rfl]
      exact hjoined.inscribes (.writeAll σ.host _ _)
  | rewritten _ _ _ _ _ _ hrewrite =>
      rw [tiesOf_at_quiet rfl] at hjoined ⊢
      exact hjoined.inscribes (rewrite_inscribes hrewrite σ.host)
  | cleared =>
      rw [tiesOf_at_quiet rfl] at hjoined
      exact hjoined.inscribes (Lexem.clear_inscribes _ _ σ.host)
  | bound hq hevent hlistener =>
      rw [tiesOf_append] at hjoined
      rw [tiesOf_at_listener]
      exact hjoined.bind hq hevent hlistener
  | rebound hevent hold hlistener =>
      rw [tiesOf_at_listener] at hjoined ⊢
      exact hjoined.rebind hevent hold hlistener
  | unbound =>
      rw [tiesOf_at_listener] at hjoined
      rw [tiesOf_append]
      exact hjoined.unbind hbase
  | hooked _ _ hcall =>
      rw [tiesOf_at_quiet rfl]
      exact hhook (.render hcall)
  | rehooked _ _ _ hcall =>
      have hnow := hhook (.diff hcall)
      rw [tiesOf_at_quiet rfl] at hnow ⊢
      exact hnow
  | unhooked _ _ hcall =>
      have hnow := hhook (.remove hcall)
      rwa [tiesOf_at_quiet rfl] at hnow
  | shown hnone => exact absurd hnone (hjudge _)
  | forgotten hnone => exact absurd hnone (hjudge _)

end Parlance
