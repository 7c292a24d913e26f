import Parlance.Proofs.Engine.Retention
import Parlance.Proofs.Engine.Standing

/-! What stands under one node: first those that were there before, and then the nodes of the outputs, in order. It is
of no account what happens under other nodes, and hooks may do there as they like. -/

namespace Parlance

open Pass

variable {ω : Type} {ρ : Regime} {b : Behaviour ω}

/-- Hooks keep the children of a node, and all nodes of the host. -/
structure Behaviour.Spares (b : Behaviour ω) (root : NodeId) : Prop where
  count : ∀ {h w h' w'}, b.Hooks h w h' w' → h.count ≤ h'.count
  children : ∀ {h w h' w'}, b.Hooks h w h' w' → h'.children root = h.children root
  parent : ∀ {h w h' w'}, b.Hooks h w h' w' → ∀ n ∈ h.children root, h'.parent n = h.parent n

/-- Under a node stand others, and after them the nodes of an output. -/
structure Fenced (root : NodeId) (others : List NodeId) (σ : Stage ω) (posts : List Post) : Prop where
  inside : root.index < σ.host.count
  children : σ.host.children root = others ++ topsAt root posts
  nodup : (topsAt root posts).Nodup
  apart : ∀ n ∈ topsAt root posts, n ∉ others
  made : ∀ n ∈ others ++ topsAt root posts, n.index < σ.host.count
  elements : ∀ n ∈ elementsOf posts, n.index < σ.host.count ∧ n ≠ root

namespace Fenced

variable {root q : NodeId} {others a c ns : List NodeId} {anchor : Option NodeId} {σ σ' : Stage ω} {h' : Host}
variable {posts posts' : List Post}

/-- Nothing has happened under the node. -/
theorem keep (h : Fenced root others σ posts) (hcount : σ.host.count ≤ σ'.host.count)
    (hchildren : σ'.host.children root = σ.host.children root) (htops : topsAt root posts' = topsAt root posts)
    (helements : ∀ n ∈ elementsOf posts', n ∈ elementsOf posts ∨ σ.host.count ≤ n.index ∧ n.index < σ'.host.count) :
    Fenced root others σ' posts' where
  inside := Nat.lt_of_lt_of_le h.inside hcount
  children := by rw [hchildren, h.children, htops]
  nodup := htops ▸ h.nodup
  apart := htops ▸ h.apart
  made n hn := Nat.lt_of_lt_of_le (h.made n (htops ▸ hn)) hcount
  elements n hn := by
    rcases helements n hn with hold | ⟨hlate, hlt⟩
    · exact ⟨Nat.lt_of_lt_of_le (h.elements n hold).1 hcount, (h.elements n hold).2⟩
    · exact ⟨hlt, fun heq => Nat.not_le.mpr h.inside (heq ▸ hlate)⟩

/-- A new node comes among those of the output. -/
theorem grow (h : Fenced root others σ posts) (hputs : Host.Puts root anchor σ.host h')
    (htops : topsAt root posts = a ++ c) (hanchor : c.head? = anchor) (htops' : topsAt root posts' = a ++ σ.host.next :: c)
    (helements : ∀ n ∈ elementsOf posts', n ∈ elementsOf posts ∨ n = σ.host.next) :
    Fenced root others (σ.onHost fun _ => h') posts' := by
  have hnodup := h.nodup
  have hapart := h.apart
  have hmade := h.made
  have hchildren := h.children
  rw [htops] at hnodup hapart hmade hchildren
  have hnext : σ.host.next.index = σ.host.count := Host.next_index σ.host
  have hnew : ∀ n ∈ others ++ (a ++ c), n ≠ σ.host.next := fun n hn heq =>
    Nat.lt_irrefl _ (hnext ▸ heq ▸ hmade n hn)
  have hat : At anchor (others ++ a) c := by
    subst hanchor
    cases c with
    | nil => rfl
    | cons first rest =>
        refine ⟨fun hmem => ?_, rest, rfl⟩
        rcases List.mem_append.mp hmem with hmem | hmem
        · exact hapart first (by simp) hmem
        · exact (List.nodup_append.mp hnodup).2.2 first hmem first List.mem_cons_self rfl
  have hold : ∀ n, n ∈ a ++ σ.host.next :: c → n = σ.host.next ∨ n ∈ a ++ c := by
    simp only [List.mem_append, List.mem_cons]
    tauto
  refine ⟨?_, ?_, ?_, fun n hn => ?_, fun n hn => ?_, fun n hn => ?_⟩
  · rw [Stage.onHost_host, hputs.count]
    exact Nat.lt_succ_of_lt h.inside
  · rw [Stage.onHost_host, hputs.children, if_pos rfl, hchildren, ← List.append_assoc, putBefore_of_at hat, htops',
      List.append_assoc]
  · rw [htops']
    exact List.perm_middle.nodup_iff.mpr (List.nodup_cons.mpr ⟨fun hmem => hnew _ (by simp [hmem]) rfl, hnodup⟩)
  · rw [htops'] at hn
    rcases hold n hn with rfl | hn
    · exact fun hmem => hnew _ (List.mem_append_left _ hmem) rfl
    · exact hapart n hn
  · rw [Stage.onHost_host, hputs.count]
    rw [htops', List.mem_append] at hn
    rcases hn with hn | hn
    · exact Nat.lt_succ_of_lt (hmade n (List.mem_append_left _ hn))
    · rcases hold n hn with rfl | hn
      · exact hnext ▸ Nat.lt_succ_self _
      · exact Nat.lt_succ_of_lt (hmade n (List.mem_append_right _ hn))
  · rw [Stage.onHost_host, hputs.count]
    rcases helements n hn with hn | rfl
    · exact ⟨Nat.lt_succ_of_lt (h.elements n hn).1, (h.elements n hn).2⟩
    · exact ⟨hnext ▸ Nat.lt_succ_self _, fun heq => Nat.lt_irrefl _ (hnext ▸ heq ▸ h.inside)⟩

/-- Nodes of the output are taken away. -/
theorem shrink (h : Fenced root others σ posts) (htakes : Host.Takes root ns σ.host h')
    (htops : topsAt root posts = a ++ (ns ++ c)) (htops' : topsAt root posts' = a ++ c)
    (helements : ∀ n ∈ elementsOf posts', n ∈ elementsOf posts) :
    Fenced root others (σ.onHost fun _ => h') posts' := by
  have hnodup := h.nodup
  have hapart := h.apart
  have hmade := h.made
  have hchildren := h.children
  rw [htops] at hnodup hapart hmade hchildren
  have hcount : (σ.onHost fun _ => h').host.count = σ.host.count := htakes.count
  obtain ⟨ha, hrest, hdisjoint⟩ := List.nodup_append.mp hnodup
  obtain ⟨hns, hc, hcross⟩ := List.nodup_append.mp hrest
  have hkept : ∀ xs : List NodeId, (∀ n ∈ xs, n ∉ ns) → xs.filter (· ∉ ns) = xs := fun xs hxs =>
    List.filter_eq_self.mpr fun n hn => decide_eq_true (hxs n hn)
  refine ⟨hcount ▸ h.inside, ?_, ?_, fun n hn => hapart n ?_, fun n hn => ?_, fun n hn => ?_⟩
  · rw [Stage.onHost_host, htakes.children, if_pos rfl, hchildren, List.filter_append, List.filter_append,
      List.filter_append, hkept others fun n hn hmem => hapart n (by simp [hmem]) hn,
      hkept a fun n hn hmem => hdisjoint n hn n (List.mem_append_left _ hmem) rfl,
      hkept c fun n hn hmem => hcross n hmem n hn rfl, List.filter_eq_nil_iff.mpr (by simp), htops', List.nil_append]
  · rw [htops']
    exact List.nodup_append.mpr ⟨ha, hc, fun n hn m hm => hdisjoint n hn m (List.mem_append_right _ hm)⟩
  · rw [htops', List.mem_append] at hn
    simp only [List.mem_append]
    tauto
  · rw [htops'] at hn
    simp only [List.mem_append] at hn hmade
    exact hcount ▸ hmade n (by tauto)
  · rw [hcount]
    exact h.elements n (helements n hn)

end Fenced

/-- Moves keep the fence. -/
theorem Move.fenced {root : NodeId} {others : List NodeId} {σ σ' : Stage ω} {posts posts' : List Post}
    (hhooks : b.Spares root) (hmove : Move ρ b σ posts σ' posts') (h : Fenced root others σ posts) :
    Fenced root others σ' posts' := by
  have hcount := hmove.count_le
  -- Whatever has no nodes at the top comes and goes, as long as the children of the node stay.
  have hquiet {left right : List Post} (olds news : List Post) {σ' : Stage ω}
      (h : Fenced root others σ (left ++ (olds ++ right)))
      (hcount : σ.host.count ≤ σ'.host.count) (hchildren : σ'.host.children root = σ.host.children root)
      (htops : topsAt root news = topsAt root olds) (helements : ∀ n ∈ elementsOf news, n ∈ elementsOf olds) :
      Fenced root others σ' (left ++ (news ++ right)) := by
    refine h.keep hcount hchildren (by simp [htops]) fun n hn => .inl ?_
    simp only [elementsOf_append, List.mem_append] at hn ⊢
    exact hn.imp_right (Or.imp_left (helements n))
  cases hmove with
  | acted | tabled => exact h.keep hcount rfl rfl fun n hn => .inl hn
  | @renamed left right q lexem old mark =>
      exact hquiet [_] [_] h hcount rfl (by simp [topsAt_cons]) fun n hn => hn
  | opened =>
      exact hquiet [] [_] h hcount rfl (by simp [topsAt_cons, Mark.tops]) (by simp [elementsOf, Post.element?])
  | closed => exact hquiet [_] [] h hcount rfl (by simp [topsAt_cons, Mark.tops]) (by simp [elementsOf])
  | @put left right q lexem anchor ns ns' h' hq hadds haim =>
      by_cases heq : q = root
      · subst heq
        have hown : q ∉ elementsOf (left ++ right) := fun hmem =>
          (h.elements q (by simpa [elementsOf_cons, Post.element?] using hmem)).2 rfl
        refine h.grow hadds.puts (a := topsAt q left ++ ns) (c := ns' ++ topsAt q right) ?_ (haim hown) ?_ fun n hn =>
          .inl (by simpa [elementsOf_cons, Post.element?] using hn)
        · simp [topsAt_cons, Mark.tops]
        · simp [topsAt_cons, Mark.tops]
      · refine hquiet [_] [_] h hcount ?_ (by simp [topsAt_cons, heq]) fun n hn => hn
        exact (hadds.puts.children root).trans (if_neg fun hback => heq hback.symm)
  | @taken left right q lexem ns ns' h' hdrops =>
      by_cases heq : q = root
      · subst heq
        refine h.shrink hdrops.takes (a := topsAt q left) (c := ns' ++ topsAt q right) ?_ ?_ fun n hn => ?_
        · simp [topsAt_cons, Mark.tops]
        · simp [topsAt_cons, Mark.tops]
        · simpa [elementsOf_cons, Post.element?] using hn
      · refine hquiet [_] [_] h hcount ?_ (by simp [topsAt_cons, heq]) fun n hn => hn
        exact (hdrops.takes.children root).trans (if_neg fun hback => heq hback.symm)
  | @raised left right q lexem anchor h' hq hadds haim =>
      have helements : ∀ n ∈ elementsOf (left ++ ⟨q, lexem, .element σ.host.next⟩ :: right),
          n ∈ elementsOf (left ++ right) ∨ n = σ.host.next := fun n hn => by
        simp only [elementsOf_cons, Post.element?, Option.toList_some, elementsOf_append, List.mem_append,
          List.mem_singleton] at hn ⊢
        tauto
      by_cases heq : q = root
      · subst heq
        refine h.grow hadds.puts (a := topsAt q left) (c := topsAt q right) (by simp) (haim fun hmem => ?_) ?_ helements
        · exact (h.elements q hmem).2 rfl
        · simp [topsAt_cons, Mark.tops]
      · refine h.keep hcount ?_ (by simp [topsAt_cons, heq]) fun n hn => ?_
        · exact (hadds.puts.children root).trans (if_neg fun hback => heq hback.symm)
        · refine (helements n hn).imp_right ?_
          rintro rfl
          rw [Stage.onHost_host, hadds.puts.count, Host.next_index]
          exact ⟨Nat.le_refl _, Nat.lt_succ_self _⟩
  | @dropped left inner right q n lexem h' hinner _ hdrops =>
      have hn : n ≠ root := (h.elements n (by simp [elementsOf_cons, Post.element?])).2
      have hnone : topsAt root inner = [] := topsAt_eq_nil fun post hpost heq => by
        rcases hinner post hpost with hown | hown
        · exact hn (hown ▸ heq)
        · exact (h.elements post.node (by simp [hown])).2 heq
      have helements : ∀ m ∈ elementsOf (left ++ right),
          m ∈ elementsOf (left ++ (inner ++ ⟨q, lexem, .element n⟩ :: right)) := fun m hm => by
        simp only [elementsOf_cons, elementsOf_append, List.mem_append] at hm ⊢
        tauto
      by_cases heq : q = root
      · subst heq
        refine h.shrink hdrops.takes (a := topsAt q left) (c := topsAt q right) ?_ topsAt_append helements
        simp [topsAt_cons, hnone, Mark.tops]
      · refine h.keep hcount ?_ (by simp [topsAt_cons, hnone, heq]) fun m hm => .inl (helements m hm)
        exact (hdrops.takes.children root).trans (if_neg fun hback => heq hback.symm)
  | worded => exact h.keep hcount ((Host.SameTree.entry σ.host _ _ _).children root) rfl fun n hn => .inl hn
  | written =>
      exact hquiet [] [_] h hcount ((Host.Inscribes.writeAll σ.host _ _).tree.children root)
        (by simp [topsAt_cons, Mark.tops]) (by simp [elementsOf, Post.element?])
  | rewritten _ _ _ _ _ _ hrewrite =>
      exact hquiet [_] [_] h hcount ((rewrite_inscribes hrewrite σ.host).tree.children root)
        (by simp [topsAt_cons]) fun n hn => hn
  | cleared =>
      exact hquiet [_] [] h hcount ((Lexem.clear_inscribes _ _ σ.host).tree.children root)
        (by simp [topsAt_cons, Mark.tops]) (by simp [elementsOf])
  | bound =>
      exact hquiet [] [_] h hcount ((Host.SameTree.addListener σ.host _ _ _).children root)
        (by simp [topsAt_cons, Mark.tops]) (by simp [elementsOf, Post.element?])
  | rebound =>
      exact hquiet [_] [_] h hcount ((Host.SameTree.rebind σ.host _ _).children root)
        (by simp [topsAt_cons]) fun n hn => hn
  | unbound =>
      exact hquiet [_] [] h hcount ((Host.SameTree.removeListener σ.host _ _ _).children root)
        (by simp [topsAt_cons, Mark.tops]) (by simp [elementsOf])
  | hooked _ _ hcall =>
      exact hquiet [] [_] h hcount (hhooks.children (.render hcall))
        (by simp [topsAt_cons, Mark.tops]) (by simp [elementsOf, Post.element?])
  | rehooked _ _ _ hcall =>
      exact hquiet [_] [_] h hcount (hhooks.children (.diff hcall))
        (by simp [topsAt_cons]) fun n hn => hn
  | unhooked _ _ hcall =>
      exact hquiet [_] [] h hcount (hhooks.children (.remove hcall))
        (by simp [topsAt_cons, Mark.tops]) (by simp [elementsOf])
  | shown _ _ hstrokes =>
      exact hquiet [_] [_] h hcount (hstrokes.inscribes.tree.children root) (by simp [topsAt_cons]) fun n hn => hn
  | @forgotten left right q lexem mark _ htops =>
      exact hquiet [_] [] h hcount rfl (by simp [topsAt_cons, htops]) (by simp [elementsOf])

/-- The nodes that a plain slot has of its own are those that end it. -/
theorem Slot.Plain.tops_mark {slot : Slot} (hslot : slot.Plain) : slot.mark.tops = slot.ends := by
  cases slot <;> first | rfl | exact hslot.elim

/-- The nodes at the top of slots are those that their posts have under the parent. -/
theorem nodesOfSlots_census {t : Array Instance} {slots : List Slot} {cs : List InstanceId} (hholds : Holds t slots cs) :
    ∀ {p : NodeId} {lexems : List Lexem} {posts : List Post} {depth : Nat}, Census ρ t p lexems slots posts →
      p ∉ elementsOf posts → (∀ id ∈ cs, t.size ≤ depth + id.index) →
      nodesOfSlots (Rendered.nodesOfComponent t depth) slots = topsAt p posts := by
  induction hholds with
  | nil =>
      intro p lexems posts depth hcensus _ _
      cases hcensus
      rw [nodesOfSlots]
      rfl
  | @part slot slots inner outer hslot _ _ _ ihinner ihouter =>
      intro p lexems posts depth hcensus hp hdepth
      cases hcensus with
      | component => exact absurd rfl (hslot _)
      | @part _ lexem _ lexems _ innerPosts outerPosts _ _ hcensusInner hcensusOuter =>
          rw [elementsOf_append, elementsOf_cons, List.mem_append, List.mem_append, not_or, not_or] at hp
          have houter := ihouter hcensusOuter hp.2.2 fun id hid => hdepth id (by simp [hid])
          rw [nodesOfSlots, houter, topsAt_append, topsAt_cons, if_pos rfl, ← List.append_assoc]
          congr 1
          by_cases hplain : slot.Plain
          · have hinside : slot.inside p = p := by
              cases slot <;> first | rfl | exact hplain.elim
            rw [hinside] at hcensusInner
            rw [Slot.nodesWith_plain hplain, ihinner hcensusInner hp.1 fun id hid => hdepth id (by simp [hid]),
              hplain.tops_mark]
          · cases slot with
            | element n kids =>
                have hn : n ≠ p := fun heq => hp.2.1 (by simp [Post.element?, Slot.mark, heq])
                rw [hcensusInner.topsAt_inner hn hp.1, Slot.nodesWith]
                rfl
            | component id => exact absurd rfl (hslot id)
            | _ => exact absurd trivial hplain
  | @component id i r slots inner outer hpresent hdeveloped _ hlater _ _ ihinner ihouter =>
      intro p lexems posts depth hcensus hp hdepth
      cases hcensus with
      | part hslot => exact absurd rfl (hslot _)
      | component hpresent₁ hparent _ hwitness hdeveloped₁ _ hcensusInner hcensusOuter =>
      rw [hpresent] at hpresent₁
      cases hpresent₁
      rw [hdeveloped] at hdeveloped₁
      cases hdeveloped₁
      rw [elementsOf_append, elementsOf_cons, List.mem_append, List.mem_append, not_or, not_or] at hp
      have hlt := (Array.getElem?_eq_some_iff.mp hpresent).1
      cases depth with
      | zero => exact absurd (hdepth id (by simp)) (by omega)
      | succ depth =>
          have hdepth' : ∀ child ∈ inner, t.size ≤ depth + child.index := by
            intro child hchild
            have hchild := hlater child hchild
            have hid := hdepth id (by simp)
            omega
          have houter := ihouter hcensusOuter hp.2.2 fun child hchild => hdepth child (by simp [hchild])
          rw [nodesOfSlots, houter, topsAt_append, topsAt_cons, if_pos rfl, ← List.append_assoc]
          simp only [Slot.nodesWith, Rendered.nodesOfComponent, hpresent, hdeveloped, hwitness]
          rw [nodesWith_eq, ihinner hcensusInner hp.1 hdepth']
          rfl

/-- What is fenced is the nodes of the output. -/
theorem Fenced.nodes {root : NodeId} {others : List NodeId} {σ : Stage ω} {posts : List Post} {r : Rendered}
    {cs : List InstanceId} (h : Fenced root others σ posts) (hretained : Retained ρ [(root, r)] σ cs posts) :
    σ.host.children root = others ++ r.nodes σ.instances := by
  have hposted : Posted ρ σ.instances (.under root [r]) posts := hretained.posted
  have hcensus : Census ρ σ.instances root r.sentence.lexems r.slots posts := by simpa using hposted.census
  have hholds : Holds σ.instances r.slots cs := by simpa [Outputs.slots] using hretained.holds
  rw [h.children, Rendered.nodes, nodesWith_eq, nodesOfSlots_census hholds hcensus
    (fun hmem => (h.elements root hmem).2 rfl) fun id _ => Nat.le_add_right _ _]

end Parlance
