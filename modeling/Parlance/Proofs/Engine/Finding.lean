import Parlance.Proofs.Engine.Recalling
import Parlance.Proofs.Engine.Retention
import Parlance.Proofs.Engine.Tending
import Parlance.Proofs.Host.Attachment

/-! Nodes are found by the names that outputs give them. A component that is asked for a node answers from its table of
names, from which a name is taken only when the component goes. So its answers are those of its output as long as no
name that the output stops giving to a node is left without a new node in the same pass. -/

namespace Parlance

open Pass

namespace Instance

/-- Under a name stands a node that the output gives that name to, if there is any. -/
structure Finds (i : Instance) (name : String) : Prop where
  sound : ∀ node, i.refs.get? name = some node → (name, node) ∈ i.names
  complete : ∀ node, (name, node) ∈ i.names → (i.refs.get? name).isSome = true

theorem names_of_core {i i' : Instance} (h : i'.core = i.core) : i'.names = i.names := by
  rw [names, names, developed_of_core h, Census.engine_of_core h, Placed.parent_of_core h]

theorem nodeRef_eq_ok {i : Instance} {name : String} {node : NodeId} :
    i.nodeRef name = .ok node ↔ i.refs.get? name = some node := by
  unfold nodeRef
  cases i.refs.get? name <;> simp

theorem not_vacant {t : Array Instance} {id : InstanceId} {i : Instance} (hpresent : t[id.index]? = some i)
    (hmounted : i.isMounted = true) : ¬ Vacant t id := fun hvacant => by
  simp [isMounted, hvacant i hpresent] at hmounted

end Instance

/-- From one table to another a component goes on giving a name to the nodes that it gave it to, unless it gives it to
a new one. -/
def Steady (t t' : Array Instance) (id : InstanceId) (name : String) : Prop :=
  ∀ i i', t[id.index]? = some i → t'[id.index]? = some i' → i.isMounted = true → i'.isMounted = true →
    (∀ node, (name, node) ∈ i'.names → (name, node) ∈ i.names) → ∀ node, (name, node) ∈ i.names → (name, node) ∈ i'.names

/-- What a pass does to a name of a component that is mounted afterwards: it is entered anew; or the component is new and
has no such name; or its entry stays, and no node is given it for the first time. -/
inductive Entered (t : Array Instance) (id : InstanceId) (i' : Instance) (name : String) : Prop
  | anew {node : NodeId} (hentry : i'.refs.get? name = some node) (hnode : (name, node) ∈ i'.names)
  | unnamed (hentry : i'.refs.get? name = none) (hnone : ∀ node, (name, node) ∉ i'.names)
  | stays {i : Instance} (hpresent : t[id.index]? = some i) (hmounted : i.isMounted = true)
      (hentry : i'.refs.get? name = i.refs.get? name) (hold : ∀ node, (name, node) ∈ i'.names → (name, node) ∈ i.names)

variable {ω : Type} {b : Behaviour ω} {σ σ' : Stage ω} {olds lexems : List Lexem} {slots slots' : List Slot}
variable {cs cs' : List InstanceId} {p : NodeId} {id : InstanceId} {name : String} {i' : Instance}

/-- What a turn of slots that stand in no component does to the names of components. -/
theorem Recalls.entered (h : Recalls b none p σ olds slots σ' lexems slots') (hlength : olds.length = slots.length)
    (hholds : Holds σ.instances slots cs) (hnodup : cs.Nodup) (hpresent' : σ'.instances[id.index]? = some i')
    (hmounted' : i'.isMounted = true) : Entered σ.instances id i' name := by
  obtain ⟨cs', hholds', hexchange⟩ := h.turn cs hholds (mounted_blind hnodup)
  obtain ⟨W, hW⟩ := Namings.of_holds hholds hlength
  obtain ⟨W', hW', hnoted⟩ := h.noted (by simp) hholds hnodup hW
  have hlt' := (Array.getElem?_eq_some_iff.mp hpresent').1
  have hlive' : ¬ Vacant σ'.instances id := Instance.not_vacant hpresent' hmounted'
  have hstays : id ∈ cs ∨ σ.instances.size ≤ id.index → id ∈ cs' := fun hid => by
    by_contra hnot
    exact hlive' (hexchange.gone id hid hlt' hnot).2
  have hnew : id ∈ cs' → ∀ {node}, (⟨id, name, node⟩ : Naming) ∈ W' ↔ (name, node) ∈ i'.names := fun hid _ =>
    hW'.held_iff hholds' hexchange.mounted.nodup (by simp) hid hpresent'
  have hnamed' : named σ'.instances id name = i'.refs.get? name := by rw [named, hpresent', Option.bind_some]
  have hnoted := (hnoted id name).resolve_left fun hgone => hlive' hgone.vacant
  rw [hnamed'] at hnoted
  by_cases hlt : id.index < σ.instances.size
  · by_cases hid : id ∈ cs
    · obtain ⟨i, hpresent⟩ : ∃ i, σ.instances[id.index]? = some i := ⟨_, Array.getElem?_eq_getElem hlt⟩
      have hmounted : i.isMounted = true := by
        rw [Instance.isMounted, Option.isSome_iff_ne_none]
        intro hnone
        refine hholds.not_vacant id hid fun j hj => ?_
        rw [hpresent, Option.some.injEq] at hj
        rw [← hj, hnone]
      rcases hnoted with ⟨node, hentry, hnode⟩ | ⟨hsame, hold⟩
      · exact .anew hentry ((hnew (hstays (.inl hid))).mp hnode)
      · rw [named, hpresent, Option.bind_some] at hsame
        refine .stays hpresent hmounted hsame fun node hnode => ?_
        exact (hW.held_iff hholds hnodup (by simp) hid hpresent).mp (hold node ((hnew (hstays (.inl hid))).mpr hnode))
    · -- it stands elsewhere, and nothing has happened to it
      have hback : Agree σ'.instances σ.instances id := Eq.symm (hexchange.agree id hlt hid)
      obtain ⟨i, hpresent, hcore⟩ := hback.some hpresent'
      have hmounted : i.isMounted = true := by
        rw [Instance.isMounted, Instance.developed_of_core hcore]
        exact hmounted'
      have hother : ∀ node, (⟨id, name, node⟩ : Naming) ∉ W' := fun node hnode => by
        rcases hW'.owner_mem hholds' _ hnode with hmem | ⟨_, ⟨⟩, -⟩
        rcases hexchange.source id hmem with hold | hlate
        · exact hid hold
        · exact Nat.not_lt.mpr hlate hlt
      rcases hnoted with ⟨node, -, hnode⟩ | ⟨hsame, -⟩
      · exact absurd hnode (hother node)
      · rw [named, hpresent, Option.bind_some] at hsame
        refine .stays hpresent hmounted hsame fun node hnode => ?_
        rwa [Instance.names_of_core hcore]
  · have hlate := Nat.le_of_not_lt hlt
    rcases hnoted with ⟨node, hentry, hnode⟩ | ⟨hsame, hold⟩
    · exact .anew hentry ((hnew (hstays (.inr hlate))).mp hnode)
    · refine .unnamed ?_ fun node hnode => ?_
      · rw [hsame, named, Array.getElem?_eq_none hlate, Option.bind_none]
      · have hmem := hold node ((hnew (hstays (.inr hlate))).mpr hnode)
        rcases hW.owner_mem hholds _ hmem with hcs | ⟨_, ⟨⟩, -⟩
        exact absurd (hholds.index_lt id hcs) hlt

/-- A component that does not take part in a pass, or that is taken away, gives up no name. -/
theorem Exchange.steady (h : Exchange (blind b) σ cs σ' cs') (hid : id ∉ cs ∨ id ∉ cs') :
    Steady σ.instances σ'.instances id name := by
  intro i i' hpresent hpresent' _ hmounted' _ node hnode
  have hlt := (Array.getElem?_eq_some_iff.mp hpresent).1
  by_cases hcs : id ∈ cs
  · have hgone := h.gone id (.inl hcs) (Array.getElem?_eq_some_iff.mp hpresent').1 (hid.resolve_left (not_not_intro hcs))
    exact absurd hgone.2 (Instance.not_vacant hpresent' hmounted')
  · obtain ⟨j, hj, hcore⟩ := (h.agree id hlt hcs).some hpresent
    rw [hpresent', Option.some.injEq] at hj
    rwa [hj, Instance.names_of_core hcore]

/-- A component that is mounted is found under its names as long as it is steady. -/
theorem Entered.finds {t t' : Array Instance} (h : Entered t id i' name) (hpresent' : t'[id.index]? = some i')
    (hmounted' : i'.isMounted = true) (hsteady : Steady t t' id name)
    (hfinds : ∀ i, t[id.index]? = some i → i.isMounted = true → i.Finds name) : i'.Finds name := by
  cases h with
  | @anew node hentry hnode =>
      refine ⟨fun other hother => ?_, fun _ _ => by rw [hentry]; rfl⟩
      rw [hentry, Option.some.injEq] at hother
      exact hother ▸ hnode
  | unnamed hentry hnone => exact ⟨fun node hnode => by simp [hentry] at hnode, fun node hnode => absurd hnode (hnone node)⟩
  | @stays i hpresent hmounted hentry hold =>
      obtain ⟨hsound, hcomplete⟩ := hfinds i hpresent hmounted
      rw [← hentry] at hsound hcomplete
      exact ⟨fun node hnode => hsteady i i' hpresent hpresent' hmounted hmounted' hold node (hsound node hnode),
        fun node hnode => hcomplete node (hold node hnode)⟩

variable (b) in
/-- A run of successful passes in which a component gives up a name for a node only for another node. -/
inductive SteadyRun (between : Host → ω → Host → ω → Prop) (id : InstanceId) (name : String) (σ₀ : Stage ω) :
    Outputs → Stage ω → Prop
  | start : SteadyRun between id name σ₀ [] σ₀
  | between {os : Outputs} {σ : Stage ω} {h : Host} {w : ω} (hrun : SteadyRun between id name σ₀ os σ)
      (hbetween : between σ.host σ.world h w) : SteadyRun between id name σ₀ os ⟨h, σ.instances, w⟩
  | render {os : Outputs} {σ σ' : Stage ω} {e : Engine} {p : NodeId} {s : Sentence} {r : Rendered}
      (hrun : SteadyRun between id name σ₀ os σ) (hp : p.index < σ.host.count) (hpass : e.render b p s σ = .ok r σ') :
      SteadyRun between id name σ₀ (os ++ [(p, r)]) σ'
  | diff {before after : Outputs} {σ σ' : Stage ω} {e : Engine} {p : NodeId} {s : Sentence} {r r' : Rendered}
      (hrun : SteadyRun between id name σ₀ (before ++ (p, r) :: after) σ) (hpass : e.diff b p s r σ = .ok r' σ')
      (hsteady : Steady σ.instances σ'.instances id name) :
      SteadyRun between id name σ₀ (before ++ (p, r') :: after) σ'
  | update {os : Outputs} {σ σ' : Stage ω} {own : InstanceId} (hrun : SteadyRun between id name σ₀ os σ)
      (hown : Reachable σ.instances os.slots own) (hpass : Engine.updateComponent b own σ = .ok () σ')
      (hsteady : Steady σ.instances σ'.instances id name) : SteadyRun between id name σ₀ os σ'
  | remove {before after : Outputs} {σ σ' : Stage ω} {p : NodeId} {r : Rendered}
      (hrun : SteadyRun between id name σ₀ (before ++ (p, r) :: after) σ)
      (hpass : Engine.remove b p r σ = .ok () σ') : SteadyRun between id name σ₀ (before ++ after) σ'

variable {between : Host → ω → Host → ω → Prop} {σ₀ : Stage ω} {os before after : Outputs} {posts : List Post}
variable {r r' : Rendered}

/-- It is a run. -/
theorem SteadyRun.run (h : SteadyRun b between id name σ₀ os σ) : Run .loose b between σ₀ os σ := by
  have hfollows : ∀ {t t' : Array Instance} {olds lexems : List Lexem} {slots slots' : List Slot},
      Regime.loose.Follows t olds slots t' lexems slots' := fun e he => by cases he
  induction h with
  | start => exact .start
  | between _ hbetween ih => exact .between ih hbetween
  | render _ hp hpass ih => exact .render ih (fun _ he => by cases he) hp hpass fun _ _ => trivial
  | diff _ hpass _ ih => exact .diff ih (fun _ he => by cases he) hpass hfollows fun _ _ => trivial
  | update _ hown hpass _ ih => exact .update ih hown hpass (fun _ _ _ _ _ _ _ _ => hfollows) fun _ _ => trivial
  | remove _ hpass ih => exact .remove ih hpass

namespace Retained

variable {ρ : Regime}

/-- What one of the outputs holds is held, each once. -/
theorem part (h : Retained ρ (before ++ (p, r) :: after) σ cs posts) :
    ∃ own, Holds σ.instances r.slots own ∧ own.Nodup ∧ r.Paired := by
  have hholds := h.holds
  rw [Outputs.slots, List.map_append, List.map_cons, slotsOf_append, slotsOf_cons] at hholds
  obtain ⟨ids, _, rfl, -, hrest⟩ := hholds.split
  obtain ⟨own, ids', rfl, hown, -⟩ := hrest.split
  exact ⟨own, hown, h.nodup.sublist (by simp), h.paired (p, r) (by simp)⟩

end Retained

/-- The nodes of words, other than those of components, are those of posts. -/
theorem Census.word_mem {ρ : Regime} {t : Array Instance} (h : Census ρ t p lexems slots posts)
    (hholds : Holds t slots cs) : ∀ w ∈ wordsOfSlots (fun _ => []) p lexems slots, ∃ post ∈ posts, post.node = w.1 := by
  induction h generalizing cs with
  | nil => simp [wordsOfSlots]
  | @part p lexem slot lexems slots inner outer hslot _ _ _ ihinner ihouter =>
      cases hholds with
      | component => exact absurd rfl (hslot _)
      | part _ hpaired hinner houter =>
      intro w hw
      rw [wordsOfSlots, Slot.wordsWith_part hslot hpaired, List.mem_append, List.mem_cons] at hw
      simp only [List.mem_append, List.mem_cons]
      rcases hw with hw | rfl | hw
      · exact (ihinner hinner w hw).imp fun _ => .imp_left .inl
      · exact ⟨_, .inr (.inl rfl), rfl⟩
      · exact (ihouter houter w hw).imp fun _ => .imp_left fun hpost => .inr (.inr hpost)
  | component hpresent _ _ _ hdeveloped _ _ _ _ ihouter =>
      cases hholds with
      | part hslot => exact absurd rfl (hslot _)
      | component _ _ _ _ _ houter =>
      intro w hw
      rw [wordsOfSlots, Slot.wordsWith, List.nil_append, List.mem_cons] at hw
      simp only [List.mem_append, List.mem_cons]
      rcases hw with rfl | hw
      · exact ⟨_, .inr (.inl rfl), rfl⟩
      · exact (ihouter houter w hw).imp fun _ => .imp_left fun hpost => .inr (.inr hpost)

theorem Posted.node_mem {ρ : Regime} {t : Array Instance} (h : Posted ρ t os posts) :
    ∀ post ∈ posts, post.node ∈ os.map (·.1) ∨ post.node ∈ elementsOf posts := by
  induction h with
  | nil => simp
  | cons hown _ ih =>
      intro post hpost
      rw [elementsOf_append, List.map_cons, List.mem_cons, List.mem_append]
      rcases List.mem_append.mp hpost with hpost | hpost
      · exact (hown.node_mem post hpost).imp .inl .inl
      · exact (ih post hpost).imp .inr .inr

/-- The names of a component that is held are given to parents of outputs and to elements in them. -/
theorem Retained.node_mem {ρ : Regime} (h : Retained ρ os σ cs posts) (hid : id ∈ cs) {i : Instance}
    (hpresent : σ.instances[id.index]? = some i) {node : NodeId} (hname : (name, node) ∈ i.names) :
    node ∈ os.map (·.1) ∨ node ∈ elementsOf posts := by
  obtain ⟨q, lexem, outer, own, outer', left, mid, right, rfl, rfl, hq, hown, hmid, -⟩ := h.posted.zoom h.holds hid
  obtain ⟨j, r, inner, -, hpresent₁, hdeveloped, -, -, hinner⟩ := hown.of_component
  rw [hpresent] at hpresent₁
  cases hpresent₁
  obtain ⟨innerPosts, witness, rfl, hparent, -, -, -, hcensus⟩ := hmid.of_component hpresent hdeveloped
  rw [Instance.names, hdeveloped, hparent] at hname
  simp only [Engine.namesIn, wordsWith_eq, List.mem_filterMap, Option.map_eq_some_iff, Prod.mk.injEq] at hname
  obtain ⟨w, hw, _, -, -, rfl⟩ := hname
  obtain ⟨post, hpost, hnode⟩ := hcensus.word_mem hinner w hw
  rcases hcensus.node_mem post hpost with heq | hmem
  · rw [← hnode, heq]
    exact hq
  · refine .inr ?_
    rw [← hnode]
    simp only [elementsOf_append, List.mem_append]
    exact .inl (.inr (.inl hmem))

/-- A node comes under another one only when it is made. -/
theorem Move.links {ρ : Regime} {posts' : List Post} (hmove : Move ρ b σ posts σ' posts') : ∀ link ∈ linksOf posts',
    link ∈ linksOf posts ∨ link.1.index < σ.host.count ∧ link.2 = σ.host.next := by
  have hsame : linksOf posts' = linksOf posts → ∀ link ∈ linksOf posts', link ∈ linksOf posts ∨
      link.1.index < σ.host.count ∧ link.2 = σ.host.next := fun heq link hlink => .inl (heq ▸ hlink)
  have hnew : ∀ {q : NodeId}, q.index < σ.host.count →
      (∀ link ∈ linksOf posts', link = (q, σ.host.next) ∨ link ∈ linksOf posts) → ∀ link ∈ linksOf posts',
        link ∈ linksOf posts ∨ link.1.index < σ.host.count ∧ link.2 = σ.host.next := by
    intro q hq hlinks link hlink
    rcases hlinks link hlink with rfl | hold
    · exact .inr ⟨hq, rfl⟩
    · exact .inl hold
  cases hmove with
  | acted | tabled | worded => exact fun link hlink => .inl hlink
  | renamed | rewritten | rebound | rehooked | shown => exact hsame (by simp [linksOf_cons])
  | opened | closed | written | cleared | bound | unbound | hooked | unhooked =>
      exact hsame (by simp [linksOf_cons, Mark.tops])
  | forgotten _ htops => exact hsame (by simp [linksOf_cons, htops])
  | put hq | raised hq =>
      refine hnew hq fun link hlink => ?_
      simp only [linksOf_append, linksOf_cons, Mark.tops, List.map_append, List.map_cons, List.map_nil, List.mem_append,
        List.mem_cons, List.not_mem_nil, or_false] at hlink ⊢
      tauto
  | taken | dropped =>
      intro link hlink
      simp only [linksOf_append, linksOf_cons, Mark.tops, List.map_append, List.mem_append] at hlink ⊢
      tauto

/-- Every node of posts was made after the node that it stands under. -/
def Rising (posts : List Post) : Prop := ∀ link ∈ linksOf posts, link.1.index < link.2.index

theorem Move.rising {ρ : Regime} {posts' : List Post} (hmove : Move ρ b σ posts σ' posts') (h : Rising posts) :
    Rising posts' := fun link hlink => by
  rcases hmove.links link hlink with hold | ⟨hq, hnew⟩
  · exact h link hold
  · rw [hnew]
    exact hq

/-- Whatever stands in outputs under attached parents is attached. -/
theorem Posted.attached {ρ : Regime} {t : Array Instance} {h : Host} (hposted : Posted ρ t os posts)
    (hattached : Attached h (linksOf posts)) (hrising : Rising posts) (hparents : ∀ o ∈ os, h.isAttached o.1 = true) :
    ∀ node, node ∈ os.map (·.1) ∨ node ∈ elementsOf posts → h.isAttached node = true := by
  have hall : ∀ (k : Nat) (node : NodeId), node.index = k → node ∈ os.map (·.1) ∨ node ∈ elementsOf posts →
      h.isAttached node = true := by
    intro k
    induction k using Nat.strong_induction_on with
    | _ k ih =>
        rintro node rfl (hnode | hnode)
        · obtain ⟨o, ho, rfl⟩ := List.mem_map.mp hnode
          exact hparents o ho
        · obtain ⟨post, hpost, hmark⟩ := mem_elementsOf.mp hnode
          have hlink : (post.node, node) ∈ linksOf posts :=
            List.mem_flatMap.mpr ⟨post, hpost, List.mem_map.mpr ⟨node, by simp [hmark, Mark.tops], rfl⟩⟩
          exact Host.isAttached_of_parent (hattached.parent _ hlink)
            (ih _ (hrising _ hlink) post.node rfl (hposted.node_mem post hpost))
  exact fun node => hall _ node rfl

/-- The posts of a run whose hooks leave the tree alone stand under one another. -/
theorem Run.attached (hquiet : b.Quiet) (hstill : ∀ {h w h' w'}, between h w h' w' → h.Still h')
    (h : Run .loose b between σ₀ os σ) :
    ∃ cs posts, Sustained .loose (fun σ posts => Attached σ.host (linksOf posts) ∧ Rising posts) os σ cs posts := by
  let R : Rules := ⟨0, False, False⟩
  refine h.sustained (fun hmove h => ?_) (fun h n hn => ?_) hquiet.keepsNodes (fun _ h => h)
    (fun hbetween => Nat.le_of_eq (hstill hbetween).tree.count.symm) (fun hbetween h => ?_) ⟨⟨nofun, List.nodup_nil⟩, nofun⟩
  · exact ⟨(hmove.attached (R := R) hquiet not_false (Nat.zero_le _) h.1).2, hmove.rising h.2⟩
  · obtain ⟨post, hpost, hmark⟩ := mem_elementsOf.mp hn
    exact h.1.made (post.node, n) (List.mem_flatMap.mpr ⟨post, hpost, List.mem_map.mpr ⟨n, by simp [hmark, Mark.tops], rfl⟩⟩)
  · exact ⟨h.1.keep (hstill hbetween).parent, h.2⟩

/-- A pass that notes its names leaves a steady component found under its names. -/
theorem Recalls.finds (h : Recalls b none p σ olds slots σ' lexems slots') (hlength : olds.length = slots.length)
    (hholds : Holds σ.instances slots cs) (hnodup : cs.Nodup)
    (hsteady : cs = [] ∨ slots' = [] ∨ Steady σ.instances σ'.instances id name)
    (hfinds : ∀ i, σ.instances[id.index]? = some i → i.isMounted = true → i.Finds name) :
    ∀ i', σ'.instances[id.index]? = some i' → i'.isMounted = true → i'.Finds name := by
  intro i' hpresent' hmounted'
  refine (h.entered hlength hholds hnodup hpresent' hmounted').finds hpresent' hmounted' ?_ hfinds
  obtain ⟨cs', hholds', hexchange⟩ := h.turn cs hholds (mounted_blind hnodup)
  rcases hsteady with rfl | rfl | hsteady
  · exact hexchange.steady (.inl (by simp))
  · cases hholds'
    exact hexchange.steady (.inr (by simp))
  · exact hsteady

/-- Whoever has an output is held, if it was so before. -/
theorem Exchange.held (h : Exchange (blind b) σ cs σ' cs') (hheld : ∀ own, ¬ Vacant σ.instances own → own ∈ cs) :
    ∀ own, ¬ Vacant σ'.instances own → own ∈ cs' := by
  intro own hlive
  have hlt : own.index < σ'.instances.size := Nat.lt_of_not_le fun hle => hlive fun i hi => by
    rw [Array.getElem?_eq_none hle] at hi
    cases hi
  by_contra hnot
  by_cases hown : own ∈ cs ∨ σ.instances.size ≤ own.index
  · exact hlive (h.gone own hown hlt hnot).2
  · rw [not_or, Nat.not_le] at hown
    exact hown.1 (hheld own fun hvacant => hlive ((h.agree own hown.2 hown.1).vacant hvacant))

/-- Throughout a steady run a component that is mounted is held by the outputs, and it is found under its names. -/
theorem SteadyRun.finds (hstart : ∀ own, Vacant σ₀.instances own) (h : SteadyRun b between id name σ₀ os σ) :
    ∃ cs posts, Retained .loose os σ cs posts ∧ (∀ own, ¬ Vacant σ.instances own → own ∈ cs) ∧
      ∀ i, σ.instances[id.index]? = some i → i.isMounted = true → i.Finds name := by
  have hadmits : ∀ {e : Engine}, Regime.loose.Admits e := fun _ he => by cases he
  have hfollows : ∀ {t t' : Array Instance} {olds lexems : List Lexem} {slots slots' : List Slot},
      Regime.loose.Follows t olds slots t' lexems slots' := fun e he => by cases he
  induction h with
  | start =>
      refine ⟨[], [], .empty σ₀, fun own hlive => absurd (hstart own) hlive, fun i hpresent hmounted => ?_⟩
      exact absurd (hstart id) (Instance.not_vacant hpresent hmounted)
  | between _ _ ih =>
      obtain ⟨cs, posts, ⟨hpaired, hholds, hnodup, hposted⟩, hheld, hfinds⟩ := ih
      exact ⟨cs, posts, ⟨hpaired, hholds, hnodup, hposted⟩, hheld, hfinds⟩
  | @render os σ σ' e p s r _ hp hpass ih =>
      obtain ⟨cs, posts, hretained, hheld, hfinds⟩ := ih
      obtain ⟨cs', posts', hcarries⟩ := hretained.render hadmits hpass
      have hrecalls : RecallsAll b none p σ [] σ' [r] := renderWithin_recalls hpass
      exact ⟨cs', posts', hcarries.retained, hcarries.exchange.held hheld,
        (hrecalls.recalls (by simp)).finds rfl .nil List.nodup_nil (.inl rfl) hfinds⟩
  | @diff before after σ σ' e p s r r' _ hpass hsteady ih =>
      obtain ⟨cs, posts, hretained, hheld, hfinds⟩ := ih
      obtain ⟨cs', posts', hcarries⟩ := hretained.diff hadmits hpass hfollows
      obtain ⟨own, hown, hnodup, hpaired⟩ := hretained.part
      have hrecalls : RecallsAll b none p σ [r] σ' [r'] := diffWithin_recalls hpass
      exact ⟨cs', posts', hcarries.retained, hcarries.exchange.held hheld,
        (hrecalls.recalls (by simpa using hpaired)).finds (length_lexemsOf (by simpa using hpaired)) (by simpa using hown)
          hnodup (.inr (.inr hsteady)) hfinds⟩
  | @update os σ σ' own _ hown hpass hsteady ih =>
      obtain ⟨cs, posts, hretained, hheld, hfinds⟩ := ih
      have hmem := hretained.holds.mem_iff_reachable.mpr hown
      obtain ⟨cs', posts', hcarries⟩ := hretained.update hmem hpass (fun _ h => h) fun _ _ _ _ _ _ _ _ => hfollows
      obtain ⟨ids, inner, ids', rfl, hinner, -⟩ := hretained.holds.zoom hmem
      -- under which word and where the component stands is of no account for the names
      have hrecalls : Recalls b none Host.root σ [⟨"", "", []⟩] [.component own] σ' [⟨"", "", []⟩] [.component own] :=
        update_recalls diffWithin_recalls (diffWithin_renewal (Watch.blind b)) rfl (Engine.update_ok hpass)
      exact ⟨cs', posts', hcarries.retained, hcarries.exchange.held hheld,
        hrecalls.finds rfl hinner (hretained.nodup.sublist (by simp)) (.inr (.inr hsteady)) hfinds⟩
  | @remove before after σ σ' p r _ hpass ih =>
      obtain ⟨cs, posts, hretained, hheld, hfinds⟩ := ih
      obtain ⟨cs', posts', hcarries, -⟩ := hretained.remove hpass
      obtain ⟨own, hown, hnodup, hpaired⟩ := hretained.part
      have hrecalls : RecallsAll b none p σ [r] σ' [] := teardown_recalls hpass
      exact ⟨cs', posts', hcarries.retained, hcarries.exchange.held hheld,
        (hrecalls.recalls (by simpa using hpaired)).finds (length_lexemsOf (by simpa using hpaired)) (by simpa using hown)
          hnodup (.inr (.inl rfl)) hfinds⟩

/-- After any run of passes in which a component gives up a name for a node only for another node, the component answers
for the name if and only if its output gives it to a node; and the node of the answer is one to which the output gives
the name, and is attached if the outputs are under attached nodes. -/
theorem nodeRef_current (hquiet : b.Quiet) (hstill : ∀ {h w h' w'}, between h w h' w' → h.Still h')
    (hstart : ∀ own, Vacant σ₀.instances own) (hrun : SteadyRun b between id name σ₀ os σ)
    (hparents : ∀ o ∈ os, σ.host.isAttached o.1 = true) {i : Instance} (hpresent : σ.instances[id.index]? = some i)
    (hmounted : i.isMounted = true) :
    ((∃ node, i.nodeRef name = .ok node) ↔ ∃ node, (name, node) ∈ i.names) ∧
    ∀ node, i.nodeRef name = .ok node → (name, node) ∈ i.names ∧ σ.host.isAttached node = true := by
  obtain ⟨cs, posts, hretained, hheld, hfinds⟩ := hrun.finds hstart
  obtain ⟨hsound, hcomplete⟩ := hfinds i hpresent hmounted
  simp only [Instance.nodeRef_eq_ok]
  refine ⟨⟨fun ⟨node, hnode⟩ => ⟨node, hsound node hnode⟩, fun ⟨node, hnode⟩ =>
    Option.isSome_iff_exists.mp (hcomplete node hnode)⟩, fun node hnode => ⟨hsound node hnode, ?_⟩⟩
  obtain ⟨cs₁, posts₁, hsustained⟩ := hrun.run.attached hquiet hstill
  obtain rfl := hretained.holds.unique hsustained.retained.holds
  have hid := hheld id (Instance.not_vacant hpresent hmounted)
  exact hsustained.retained.posted.attached hsustained.kept.1 hsustained.kept.2 hparents node
    (hsustained.retained.node_mem hid hpresent (hsound node hnode))

/-- A field with a name, if it is to be shown. -/
def Sentence.form (shown : Bool) : Sentence :=
  .plain [("if", [.bool shown,
    .sentence ⟨1⟩ (.plain [("tag", [.str "input", .sentence ⟨2⟩ (.plain [("ref", [.str "field"])])])])])]

/-- Components that show a field as long as the world says so. -/
def Behaviour.form : Behaviour Bool where
  fresh := pure ⟨0⟩
  run _ _ s _ := pure s
  render _ _ _ := pure (.plain [])
  callback _ _ := pure ()
  hookRender _ _ _ h := pure h
  hookDiff _ _ _ _ h := pure h
  hookRemove _ _ _ h := pure h
  create _ _ _ := pure ()
  view _ := do pure (.form (← get))
  lifecycle _ _ := pure ()

/-- The component of an output gives names, and has the field under its name. -/
def Rendered.fielded (r : Rendered) (σ : Stage Bool) (names : List (String × NodeId)) : Bool :=
  match r.slots, σ.instances[0]? with
  | [.component ⟨0⟩], some i => i.isMounted && decide (i.names = names) && decide (i.refs.get? "field" = some ⟨1⟩)
  | _, _ => false

theorem Rendered.fielded_spec {r : Rendered} {σ : Stage Bool} {names : List (String × NodeId)}
    (h : r.fielded σ names = true) : Reachable σ.instances (Outputs.slots [(Host.root, r)]) ⟨0⟩ ∧
      ∃ i, σ.instances[(⟨0⟩ : InstanceId).index]? = some i ∧ i.isMounted = true ∧ i.names = names ∧
        i.nodeRef "field" = .ok ⟨1⟩ := by
  unfold Rendered.fielded at h
  split at h
  next i hslots hpresent =>
    simp only [Bool.and_eq_true, decide_eq_true_eq] at h
    exact ⟨.here (by simp [Outputs.slots, hslots]), i, hpresent, h.1.1, h.1.2, Instance.nodeRef_eq_ok.mpr h.2⟩
  next => cases h

/-- The one component of a form. -/
def Sentence.formed : Sentence := .plain [("component", [.component ⟨"Form", ⟨1⟩⟩, .null])]

/-- A form is shown, and shown once more. -/
theorem nodeRef_current_form : ∃ r σ₁ σ₂ i,
    Engine.plain.render Behaviour.form Host.root .formed ⟨.new, #[], true⟩ = .ok r σ₁ ∧
    Engine.updateComponent Behaviour.form ⟨0⟩ σ₁ = .ok () σ₂ ∧ σ₂.instances[(⟨0⟩ : InstanceId).index]? = some i ∧
    ((∃ node, i.nodeRef "field" = .ok node) ↔ ∃ node, ("field", node) ∈ i.names) ∧
    ∀ node, i.nodeRef "field" = .ok node → ("field", node) ∈ i.names ∧ σ₂.host.isAttached node = true := by
  have hcheck : Pass.check (Engine.plain.render Behaviour.form Host.root .formed) ⟨.new, #[], true⟩
      (fun r σ₁ => r.fielded σ₁ [("field", ⟨1⟩)] && Pass.check (Engine.updateComponent Behaviour.form ⟨0⟩) σ₁
        fun _ σ₂ => r.fielded σ₂ [("field", ⟨1⟩)]) = true := by decide +kernel
  obtain ⟨r, σ₁, hrender, hcheck⟩ := exists_of_check hcheck
  rw [Bool.and_eq_true] at hcheck
  obtain ⟨hfirst, hcheck⟩ := hcheck
  obtain ⟨⟨⟩, σ₂, hupdate, hsecond⟩ := exists_of_check hcheck
  obtain ⟨hreachable, i₁, hpresent₁, -, hnames₁, -⟩ := Rendered.fielded_spec hfirst
  obtain ⟨-, i, hpresent, hmounted, hnames, -⟩ := Rendered.fielded_spec hsecond
  have hsteady : Steady σ₁.instances σ₂.instances ⟨0⟩ "field" := by
    intro j j' hj hj' _ _ _ node hnode
    rw [hpresent₁, Option.some.injEq] at hj
    rw [hpresent, Option.some.injEq] at hj'
    rwa [← hj', hnames, ← hnames₁, hj]
  let between : Host → Bool → Host → Bool → Prop := fun h _ h' _ => h.Still h'
  have hrun : SteadyRun Behaviour.form between ⟨0⟩ "field" ⟨.new, #[], true⟩ [(Host.root, r)] σ₂ :=
    .update (.render .start (by decide) hrender) hreachable hupdate hsteady
  have hquiet : Behaviour.form.Quiet := by
    rintro h w h' w' (⟨⟨⟩⟩ | ⟨⟨⟩⟩ | ⟨⟨⟩⟩) <;>
      exact ⟨.refl h, fun _ => rfl, [], (List.append_nil _).symm, by simp⟩
  have hcurrent := nodeRef_current hquiet (fun hstill => hstill) (fun own i hi => by simp at hi) hrun
    (by simp [Host.isAttached_root]) hpresent hmounted
  exact ⟨r, σ₁, σ₂, i, hrender, hupdate, hpresent, hcurrent⟩

/-- A field that is not shown any more is still found under its name, though the output names no node and the field is
not attached. -/
theorem nodeRef_stale : ∃ r σ₁ σ₂ i,
    Engine.plain.render Behaviour.form Host.root .formed ⟨.new, #[], true⟩ = .ok r σ₁ ∧
    Engine.updateComponent Behaviour.form ⟨0⟩ ⟨σ₁.host, σ₁.instances, false⟩ = .ok () σ₂ ∧
    Run .loose Behaviour.form (fun h _ h' _ => h' = h) ⟨.new, #[], true⟩ [(Host.root, r)] σ₂ ∧
    σ₂.instances[(⟨0⟩ : InstanceId).index]? = some i ∧ i.isMounted = true ∧ i.nodeRef "field" = .ok ⟨1⟩ ∧
    (∀ node, ("field", node) ∉ i.names) ∧ σ₂.host.isAttached ⟨1⟩ = false := by
  have hcheck : Pass.check (Engine.plain.render Behaviour.form Host.root .formed) ⟨.new, #[], true⟩
      (fun r σ₁ => r.fielded σ₁ [("field", ⟨1⟩)] && Pass.check (Engine.updateComponent Behaviour.form ⟨0⟩)
        ⟨σ₁.host, σ₁.instances, false⟩ fun _ σ₂ => r.fielded σ₂ [] && !σ₂.host.isAttached ⟨1⟩) = true := by decide +kernel
  obtain ⟨r, σ₁, hrender, hcheck⟩ := exists_of_check hcheck
  rw [Bool.and_eq_true] at hcheck
  obtain ⟨hfirst, hcheck⟩ := hcheck
  obtain ⟨⟨⟩, σ₂, hupdate, hsecond⟩ := exists_of_check hcheck
  rw [Bool.and_eq_true, Bool.not_eq_true'] at hsecond
  obtain ⟨hreachable, -⟩ := Rendered.fielded_spec hfirst
  obtain ⟨-, i, hpresent, hmounted, hnames, hentry⟩ := Rendered.fielded_spec hsecond.1
  have hrendered : Run .loose Behaviour.form (fun h _ h' _ => h' = h) ⟨.new, #[], true⟩ [(Host.root, r)] σ₁ :=
    .render .start (fun _ he => by cases he) (by decide) hrender fun _ _ => trivial
  have hrun : Run .loose Behaviour.form (fun h _ h' _ => h' = h) ⟨.new, #[], true⟩ [(Host.root, r)] σ₂ :=
    .update (.between hrendered (w := false) rfl) hreachable hupdate (fun _ _ _ _ _ _ _ _ _ he => by cases he)
      fun _ _ => trivial
  exact ⟨r, σ₁, σ₂, i, hrender, hupdate, hrun, hpresent, hmounted, hentry, by simp [hnames], hsecond.2⟩

end Parlance
