import Parlance.Proofs.Engine.Placing
import Parlance.Proofs.Engine.Removal

/-! What an output keeps on a host, as one list: for every slot at any depth a post, with the node that its lexem is
carried out on and what the slot has there of its own. Posts come in the order in which a removal clears them, what
is inside a slot before the slot itself. -/

namespace Parlance

/-- What a slot has on a host beside what the outputs inside it have. -/
inductive Mark where
  /-- Entries of the node. -/
  | entries
  /-- Nodes under the node. -/
  | nodes (ns : List NodeId)
  /-- An element under the node, with posts of its own inside. -/
  | element (n : NodeId)
  | listener (id : ListenerId)
  /-- A hook that is told of the node named here. -/
  | hook (n : NodeId)

structure Post where
  node : NodeId
  lexem : Lexem
  mark : Mark

namespace Mark

/-- The nodes that stand under the node of a post. -/
def tops : Mark → List NodeId
  | nodes ns => ns
  | element n => [n]
  | _ => []

def isHook : Mark → Bool
  | hook _ => true
  | _ => false

/-- Whether the lexem is of no account, as it is for nodes: they are taken away in the same way whatever they show. -/
def loose : Mark → Bool
  | nodes _ | element _ => true
  | _ => false

end Mark

/-- The element of a post, if it has one. -/
def Post.element? (post : Post) : Option NodeId :=
  match post.mark with
  | .element n => some n
  | _ => none

theorem Post.element_eq_some {post : Post} {n : NodeId} : post.element? = some n ↔ post.mark = .element n := by
  unfold Post.element?
  cases post.mark <;> simp

/-- The elements among posts. -/
def elementsOf (posts : List Post) : List NodeId := posts.filterMap Post.element?

/-- The nodes of posts that stand under a node, in order. -/
def topsAt (q : NodeId) (posts : List Post) : List NodeId :=
  posts.flatMap fun post => if post.node = q then post.mark.tops else []

/-- What a slot that is no component has of its own. -/
def Slot.mark : Slot → Mark
  | .attribute => .entries
  | .element n _ => .element n
  | .listener id => .listener id
  | .hook n => .hook n
  | slot => .nodes slot.ends

/-- The parent of what is inside a slot. -/
def Slot.inside (p : NodeId) : Slot → NodeId
  | .element n _ => n
  | _ => p

section Posts

variable {posts posts' : List Post} {q n : NodeId}

theorem mem_elementsOf : n ∈ elementsOf posts ↔ ∃ post ∈ posts, post.mark = .element n := by
  simp only [elementsOf, List.mem_filterMap, Post.element_eq_some]

theorem mem_elementsOf_cons (post : Post) (h : n ∈ elementsOf posts) : n ∈ elementsOf (post :: posts) := by
  obtain ⟨own, hown, hmark⟩ := mem_elementsOf.mp h
  exact mem_elementsOf.mpr ⟨own, List.mem_cons_of_mem _ hown, hmark⟩

theorem elementsOf_cons (post : Post) (posts : List Post) :
    elementsOf (post :: posts) = post.element?.toList ++ elementsOf posts := by
  rw [elementsOf, List.filterMap_cons]
  cases post.element? <;> rfl

@[simp] theorem elementsOf_append : elementsOf (posts ++ posts') = elementsOf posts ++ elementsOf posts' :=
  List.filterMap_append

@[simp] theorem topsAt_nil : topsAt q [] = [] := rfl

@[simp] theorem topsAt_append : topsAt q (posts ++ posts') = topsAt q posts ++ topsAt q posts' :=
  List.flatMap_append

theorem topsAt_cons (post : Post) :
    topsAt q (post :: posts) = (if post.node = q then post.mark.tops else []) ++ topsAt q posts :=
  List.flatMap_cons

/-- Posts on other nodes have nothing under a node. -/
theorem topsAt_eq_nil (h : ∀ post ∈ posts, post.node ≠ q) : topsAt q posts = [] :=
  List.flatMap_eq_nil_iff.mpr fun post hpost => if_neg (h post hpost)

end Posts

/-- Whether an instruction leaves something on its node that a lexem is needed to take back. -/
def Instruction.lasts : Instruction → Bool
  | .attr | .prop | .data | .style | .cssClass | .classes | .id | .on | .onDom => true
  | _ => false

/-- What a lexem may have left when an engine carried it out. -/
inductive Engine.Suits (e : Engine) (lexem : Lexem) : Mark → Prop
  | nodes {ns : List NodeId}
      (hword : e.isTarget lexem.space = true → ∀ i, e.instruction? lexem = some i → i.lasts = false) :
      Suits e lexem (.nodes ns)
  | element {n : NodeId} (hword : e.instruction? lexem = some .tag) : Suits e lexem (.element n)
  | entries {i : Instruction} {ws : List Write} (hspace : e.isTarget lexem.space = true)
      (hword : e.instruction? lexem = some i) (hwrites : lexem.writes i = some ws) : Suits e lexem .entries
  | listener {id : ListenerId} {event : String} {listener : Listener} (hspace : e.isTarget lexem.space = true)
      (hword : e.instruction? lexem = some .on) (hevent : lexem.stringArg 0 = .ok event)
      (hlistener : lexem.listener = .ok listener) : Suits e lexem (.listener id)
  | hook {n : NodeId} {hook : Identity} (hspace : e.isTarget lexem.space = true)
      (hword : e.instruction? lexem = some .onDom) (hhook : lexem.hookArg = .ok hook) : Suits e lexem (.hook n)

/-- What is known of the passes of a run: whether one engine makes all of them, which lexems may come in the place
of which, which ones may leave entries on a node, and whether all that slots have is to be accounted for by their words,
or only hooks. -/
structure Regime where
  engine : Option Engine
  follows : Lexem → Lexem → Prop
  allows : NodeId → Lexem → Prop
  whole : Bool := true
  /-- A word that has to account for what a slot has does not lose all of its arguments. -/
  args : ∀ {e lexem old mark}, engine = some e → (whole || mark.isHook) = true → e.Suits old mark → follows lexem old →
    lexem.args = [] → old.args = []

namespace Regime

variable (ρ : Regime)

/-- The engine by which a word accounts for what a slot has, if it is to do so. -/
def judge (mark : Mark) : Option Engine :=
  match ρ.whole || mark.isHook with
  | true => ρ.engine
  | false => none

def Suits (lexem : Lexem) (mark : Mark) : Prop := ∀ e, ρ.judge mark = some e → e.Suits lexem mark

def Admits (e : Engine) : Prop := ∀ e', ρ.engine = some e' → e = e'

/-- Nothing is known of the passes of a run: each may be made by another engine, and what comes in the place of a word
is of no account. -/
def loose : Regime where
  engine := none
  follows lexem old := lexem.args = [] → old.args = []
  allows _ _ := True
  args := nofun

variable {ρ}

theorem judge_eq_some {mark : Mark} {e : Engine} :
    ρ.judge mark = some e ↔ (ρ.whole || mark.isHook) = true ∧ ρ.engine = some e := by
  unfold judge
  cases ρ.whole || mark.isHook <;> simp

theorem judge_of_whole (h : ρ.whole = true) (mark : Mark) : ρ.judge mark = ρ.engine := by
  rw [judge, h, Bool.true_or]

/-- Where words account for entries, they account for everything. -/
theorem judge_of_entries {e : Engine} (h : ρ.judge .entries = some e) (mark : Mark) : ρ.judge mark = some e := by
  obtain ⟨hwhole, he⟩ := judge_eq_some.mp h
  exact judge_eq_some.mpr ⟨by simp [show ρ.whole = true by simpa [Mark.isHook] using hwhole], he⟩

end Regime

/-- The posts of slots that stand under a parent. -/
inductive Census (ρ : Regime) (t : Array Instance) : NodeId → List Lexem → List Slot → List Post → Prop
  | nil {p : NodeId} : Census ρ t p [] [] []
  | part {p : NodeId} {lexem : Lexem} {slot : Slot} {lexems : List Lexem} {slots : List Slot}
      {inner outer : List Post} (hslot : ∀ id, slot ≠ .component id) (hsuits : ρ.Suits lexem slot.mark)
      (hinner : Census ρ t (slot.inside p) (lexemsOf slot.parts) (slotsOf slot.parts) inner)
      (houter : Census ρ t p lexems slots outer) :
      Census ρ t p (lexem :: lexems) (slot :: slots) (inner ++ ⟨p, lexem, slot.mark⟩ :: outer)
  | component {p witness : NodeId} {lexem : Lexem} {id : InstanceId} {i : Instance} {r : Rendered}
      {lexems : List Lexem} {slots : List Slot} {inner outer : List Post}
      (hpresent : t[id.index]? = some i) (hparent : i.parent = p) (hadmits : ρ.Admits i.engine)
      (hwitness : i.witness = some witness) (hdeveloped : i.developed = some r)
      (hsuits : ρ.Suits lexem (.nodes [witness]))
      (hinner : Census ρ t p r.sentence.lexems r.slots inner) (houter : Census ρ t p lexems slots outer) :
      Census ρ t p (lexem :: lexems) (.component id :: slots) (inner ++ ⟨p, lexem, .nodes [witness]⟩ :: outer)

namespace Census

variable {ρ : Regime} {t t' : Array Instance} {p : NodeId} {lexems lexems' : List Lexem} {slots slots' : List Slot}
variable {ps ps' : List Post} {cs : List InstanceId}

theorem length_eq (h : Census ρ t p lexems slots ps) : lexems.length = slots.length := by
  induction h with
  | nil => rfl
  | part _ _ _ _ _ ih | component _ _ _ _ _ _ _ _ _ ih => rw [List.length_cons, List.length_cons, ih]

theorem append (hfirst : Census ρ t p lexems slots ps) (hsecond : Census ρ t p lexems' slots' ps') :
    Census ρ t p (lexems ++ lexems') (slots ++ slots') (ps ++ ps') := by
  induction hfirst with
  | nil => exact hsecond
  | part hslot hsuits hinner _ _ ih =>
      rw [List.append_assoc, List.cons_append, List.cons_append, List.cons_append]
      exact .part hslot hsuits hinner (ih hsecond)
  | component hpresent hparent hadmits hwitness hdeveloped hsuits hinner _ _ ih =>
      rw [List.append_assoc, List.cons_append, List.cons_append, List.cons_append]
      exact .component hpresent hparent hadmits hwitness hdeveloped hsuits hinner (ih hsecond)

theorem split (hlength : lexems.length = slots.length) (h : Census ρ t p (lexems ++ lexems') (slots ++ slots') ps) :
    ∃ a c, ps = a ++ c ∧ Census ρ t p lexems slots a ∧ Census ρ t p lexems' slots' c := by
  induction lexems generalizing slots ps with
  | nil =>
      obtain rfl := List.length_eq_zero_iff.mp hlength.symm
      exact ⟨[], ps, rfl, .nil, h⟩
  | cons lexem lexems ih =>
      obtain ⟨slot, slots, rfl⟩ := List.exists_cons_of_length_eq_add_one hlength.symm
      rw [List.length_cons, List.length_cons, Nat.add_right_cancel_iff] at hlength
      cases h with
      | part hslot hsuits hinner houter =>
          obtain ⟨a, c, rfl, ha, hc⟩ := ih hlength houter
          exact ⟨_, c, by rw [List.append_assoc, List.cons_append], .part hslot hsuits hinner ha, hc⟩
      | component hpresent hparent hadmits hwitness hdeveloped hsuits hinner houter =>
          obtain ⟨a, c, rfl, ha, hc⟩ := ih hlength houter
          exact ⟨_, c, by rw [List.append_assoc, List.cons_append],
            .component hpresent hparent hadmits hwitness hdeveloped hsuits hinner ha, hc⟩

/-- Every post is on the parent or on an element among the posts. -/
theorem node_mem (h : Census ρ t p lexems slots ps) : ∀ post ∈ ps, post.node = p ∨ post.node ∈ elementsOf ps := by
  induction h with
  | nil => simp
  | @part _ _ slot _ _ _ _ _ _ _ _ ihinner ihouter =>
      intro post hpost
      simp only [elementsOf_append, List.mem_append]
      rcases List.mem_append.mp hpost with hpost | hpost
      · rcases ihinner post hpost with heq | hmem
        · cases slot with
          | element n kids =>
              rw [heq]
              exact .inr (.inr (mem_elementsOf.mpr ⟨_, List.mem_cons_self, rfl⟩))
          | _ => exact .inl heq
        · exact .inr (.inl hmem)
      · rcases List.mem_cons.mp hpost with rfl | hpost
        · exact .inl rfl
        · exact (ihouter post hpost).imp_right fun hmem => .inr (mem_elementsOf_cons _ hmem)
  | component _ _ _ _ _ _ _ _ ihinner ihouter =>
      intro post hpost
      simp only [elementsOf_append, List.mem_append]
      rcases List.mem_append.mp hpost with hpost | hpost
      · exact (ihinner post hpost).imp_right .inl
      · rcases List.mem_cons.mp hpost with rfl | hpost
        · exact .inl rfl
        · exact (ihouter post hpost).imp_right fun hmem => .inr (mem_elementsOf_cons _ hmem)

theorem engine_of_core {i i' : Instance} (hcore : i'.core = i.core) : i'.engine = i.engine := by
  have hengine := congrArg Instance.engine hcore
  exact hengine

/-- Posts stay the same as long as the table agrees about what is held. -/
theorem congr (h : Census ρ t p lexems slots ps) (hholds : Holds t slots cs) (hagree : ∀ id ∈ cs, Agree t t' id) :
    Census ρ t' p lexems slots ps := by
  induction h generalizing cs with
  | nil => exact .nil
  | part hslot hsuits _ _ ihinner ihouter =>
      cases hholds with
      | component => exact absurd rfl (hslot _)
      | part _ _ hinner houter =>
          exact .part hslot hsuits (ihinner hinner fun id hid => hagree id (by simp [hid]))
            (ihouter houter fun id hid => hagree id (by simp [hid]))
  | component hpresent hparent hadmits hwitness hdeveloped hsuits _ _ ihinner ihouter =>
      cases hholds with
      | part hslot => exact absurd rfl (hslot _)
      | component hpresent' hdeveloped' _ _ hinner houter =>
          rw [hpresent] at hpresent'
          cases hpresent'
          rw [hdeveloped] at hdeveloped'
          cases hdeveloped'
          obtain ⟨i', hpresent', hcore⟩ := (hagree _ (by simp)).some hpresent
          exact .component hpresent' ((Placed.parent_of_core hcore).trans hparent)
            (engine_of_core hcore ▸ hadmits) ((Placed.witness_of_core hcore).trans hwitness)
            ((Instance.developed_of_core hcore).trans hdeveloped) hsuits
            (ihinner hinner fun id hid => hagree id (by simp [hid]))
            (ihouter houter fun id hid => hagree id (by simp [hid]))

/-- The posts of a component on its own: those of its output, and its marker after them. -/
theorem of_component {lexem : Lexem} {id : InstanceId} {i : Instance} {r : Rendered}
    (h : Census ρ t p [lexem] [.component id] ps) (hpresent : t[id.index]? = some i)
    (hdeveloped : i.developed = some r) :
    ∃ inner witness, ps = inner ++ [⟨p, lexem, .nodes [witness]⟩] ∧ i.parent = p ∧ ρ.Admits i.engine ∧
      i.witness = some witness ∧ ρ.Suits lexem (.nodes [witness]) ∧
      Census ρ t p r.sentence.lexems r.slots inner := by
  cases h with
  | part hslot => exact absurd rfl (hslot id)
  | component hpresent' hparent hadmits hwitness hdeveloped' hsuits hinner houter =>
      cases houter
      rw [hpresent] at hpresent'
      cases hpresent'
      rw [hdeveloped] at hdeveloped'
      cases hdeveloped'
      exact ⟨_, _, rfl, hparent, hadmits, hwitness, hsuits, hinner⟩

/-- What stands under the parent is what stands under it at the top, if none of the elements is the parent itself. -/
theorem topsAt_inner {q : NodeId} (h : Census ρ t q lexems slots ps) {p : NodeId} (hq : q ≠ p)
    (hp : p ∉ elementsOf ps) : topsAt p ps = [] :=
  topsAt_eq_nil fun post hpost heq => (h.node_mem post hpost).elim (fun hnode => hq (hnode ▸ heq)) fun hmem =>
    hp (heq ▸ hmem)

/-- The posts of a component that is held somewhere can be replaced by others, and with them those of everything that
it stands in. -/
theorem zoom {id : InstanceId} (h : Census ρ t p lexems slots ps) (hholds : Holds t slots cs) (hid : id ∈ cs) :
    ∃ q lexem before own after left mid right, cs = before ++ own ++ after ∧ ps = left ++ mid ++ right ∧
      (q = p ∨ q ∈ elementsOf ps) ∧ Holds t [.component id] own ∧ Census ρ t q [lexem] [.component id] mid ∧
      ∀ (t' : Array Instance) (mid' : List Post), Census ρ t' q [lexem] [.component id] mid' →
        (∀ x ∈ before ++ after, Agree t t' x) → Census ρ t' p lexems slots (left ++ mid' ++ right) := by
  induction h generalizing cs with
  | nil =>
      cases hholds
      simp at hid
  | @part p lexem slot lexems slots inner outer hslot hsuits hcensus hrest ihinner ihouter =>
      cases hholds with
      | component => exact absurd rfl (hslot _)
      | @part _ _ innerIds outerIds _ hpaired hinner houter =>
      rcases List.mem_append.mp hid with hid | hid
      · obtain ⟨q, own, before, ids, after, left, mid, right, rfl, rfl, hq, hown, hmid, hreplace⟩ := ihinner hinner hid
        refine ⟨q, own, before, ids, after ++ outerIds, left, mid,
          right ++ ⟨p, lexem, slot.mark⟩ :: outer, by simp, by simp, ?_, hown, hmid, ?_⟩
        · rcases hq with rfl | hq
          · cases slot with
            | element n kids => exact .inr (mem_elementsOf.mpr ⟨⟨p, lexem, .element n⟩, by simp [Slot.mark], rfl⟩)
            | _ => exact .inl rfl
          · rw [elementsOf_append]
            exact .inr (List.mem_append_left _ hq)
        · intro t' mid' hmid' hagree
          rw [← List.append_assoc]
          exact .part hslot hsuits (hreplace t' mid' hmid' fun x hx => hagree x (by grind))
            (hrest.congr houter fun x hx => hagree x (by simp [hx]))
      · obtain ⟨q, own, before, ids, after, left, mid, right, rfl, rfl, hq, hown, hmid, hreplace⟩ := ihouter houter hid
        refine ⟨q, own, innerIds ++ before, ids, after, inner ++ ⟨p, lexem, slot.mark⟩ :: left, mid, right, by simp,
          by simp, hq.imp_right fun hmem => ?_, hown, hmid, ?_⟩
        · rw [elementsOf_append]
          exact List.mem_append_right _ (mem_elementsOf_cons _ hmem)
        · intro t' mid' hmid' hagree
          rw [List.append_assoc, List.append_assoc, List.cons_append, ← List.append_assoc left]
          exact .part hslot hsuits (hcensus.congr hinner fun x hx => hagree x (by simp [hx]))
            (hreplace t' mid' hmid' fun x hx => hagree x (by grind))
  | @component p witness lexem own i r lexems slots inner outer hpresent hparent hadmits hwitness hdeveloped hsuits
      hcensus hrest ihinner ihouter =>
      cases hholds with
      | part hslot => exact absurd rfl (hslot _)
      | @component _ _ _ _ innerIds outerIds hpresent' hdeveloped' hpaired hlater hinner houter =>
      rw [hpresent] at hpresent'
      cases hpresent'
      rw [hdeveloped] at hdeveloped'
      cases hdeveloped'
      have hagain : ∀ {t' inner' outer'}, Agree t t' own → Census ρ t' p r.sentence.lexems r.slots inner' →
          Census ρ t' p lexems slots outer' → Census ρ t' p (lexem :: lexems) (.component own :: slots)
            (inner' ++ ⟨p, lexem, .nodes [witness]⟩ :: outer') := by
        intro t' inner' outer' hagree hinner' houter'
        obtain ⟨i', hpresent', hcore⟩ := hagree.some hpresent
        exact .component hpresent' ((Placed.parent_of_core hcore).trans hparent) (engine_of_core hcore ▸ hadmits)
          ((Placed.witness_of_core hcore).trans hwitness) ((Instance.developed_of_core hcore).trans hdeveloped) hsuits
          hinner' houter'
      rcases List.mem_append.mp hid with hid | hid
      · obtain ⟨q, word, before, ids, after, left, mid, right, rfl, rfl, hq, hown, hmid, hreplace⟩ := ihinner hinner hid
        refine ⟨q, word, before, ids, after ++ own :: outerIds, left, mid,
          right ++ ⟨p, lexem, .nodes [witness]⟩ :: outer, by simp, by simp, hq.imp_right fun hmem => ?_, hown, hmid, ?_⟩
        · rw [elementsOf_append]
          exact List.mem_append_left _ hmem
        · intro t' mid' hmid' hagree
          rw [← List.append_assoc]
          exact hagain (hagree own (by simp)) (hreplace t' mid' hmid' fun x hx => hagree x (by grind))
            (hrest.congr houter fun x hx => hagree x (by simp [hx]))
      rcases List.mem_cons.mp hid with heq | hid
      · subst heq
        refine ⟨p, lexem, [], innerIds ++ [id], outerIds, [], inner ++ [⟨p, lexem, .nodes [witness]⟩], outer, ?_,
          by simp, .inl rfl,
          .component hpresent hdeveloped hpaired hlater hinner .nil,
          .component hpresent hparent hadmits hwitness hdeveloped hsuits hcensus .nil, ?_⟩
        · simp
        · intro t' mid' hmid' hagree
          exact hmid'.append (hrest.congr houter fun x hx => hagree x (by simp [hx]))
      · obtain ⟨q, word, before, ids, after, left, mid, right, rfl, rfl, hq, hown, hmid, hreplace⟩ := ihouter houter hid
        refine ⟨q, word, innerIds ++ own :: before, ids, after, inner ++ ⟨p, lexem, .nodes [witness]⟩ :: left, mid, right,
          by simp, by simp, hq.imp_right fun hmem => ?_, hown, hmid, ?_⟩
        · rw [elementsOf_append]
          exact List.mem_append_right _ (mem_elementsOf_cons _ hmem)
        · intro t' mid' hmid' hagree
          rw [List.append_assoc, List.append_assoc, List.cons_append, ← List.append_assoc left]
          exact hagain (hagree own (by simp)) (hcensus.congr hinner fun x hx => hagree x (by simp [hx]))
            (hreplace t' mid' hmid' fun x hx => hagree x (by grind))

end Census

end Parlance
