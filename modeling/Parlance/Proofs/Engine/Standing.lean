import Parlance.Engine.Output
import Parlance.Proofs.Engine.Contiguity

/-! The output of a sentence over whole runs: one block, put where the cursor was, that stays there whatever
passes follow and in whatever order. Inside it, and among the children of every element in it, what a slot
stands for comes immediately before its witness. -/

namespace Parlance

open Pass

variable {ω : Type} {b : Behaviour ω} {T : Territory b}

/-- A slot of an output at any depth, with the parent that it stands under. -/
inductive Stands (t : Array Instance) : NodeId → List Slot → NodeId → Slot → Prop
  | here {p : NodeId} {slots : List Slot} {slot : Slot} (hslot : slot ∈ slots) : Stands t p slots p slot
  | plain {p q : NodeId} {slots : List Slot} {outer slot : Slot} (houter : outer ∈ slots)
      (hplain : outer.Plain) (hinner : Stands t p (slotsOf outer.parts) q slot) : Stands t p slots q slot
  | element {p n q : NodeId} {kids : List Rendered} {slots : List Slot} {slot : Slot}
      (houter : Slot.element n kids ∈ slots) (hinner : Stands t n (slotsOf kids) q slot) : Stands t p slots q slot
  | component {p q : NodeId} {id : InstanceId} {i : Instance} {r : Rendered} {slots : List Slot} {slot : Slot}
      (houter : Slot.component id ∈ slots) (hpresent : t[id.index]? = some i) (hdeveloped : i.developed = some r)
      (hinner : Stands t p r.slots q slot) : Stands t p slots q slot

/-- The parents that an output is concerned with: its own, and its elements. -/
def Concerned (t : Array Instance) (p : NodeId) (slots : List Slot) (n : NodeId) : Prop :=
  n = p ∨ ∃ q kids, Stands t p slots q (.element n kids)

/-- The nodes that a slot stands for, and its witness after them. -/
inductive Witnessed (t : Array Instance) : Slot → List NodeId → NodeId → Prop
  | branch {witness : NodeId} {developed : Option Rendered} :
      Witnessed t (.branch witness developed) (developed.toList.flatMap (·.nodes t)) witness
  | each {witness : NodeId} {items : List Rendered} :
      Witnessed t (.each witness items) (items.flatMap (·.nodes t)) witness
  | raw {witness : NodeId} {nodes : List NodeId} : Witnessed t (.raw witness nodes) nodes witness
  | component {witness : NodeId} {id : InstanceId} {i : Instance} {r : Rendered}
      (hpresent : t[id.index]? = some i) (hwitness : i.witness = some witness)
      (hdeveloped : i.developed = some r) : Witnessed t (.component id) (r.nodes t) witness

section Nodes

variable {within : InstanceId → List NodeId}

theorem nodesWith_eq (r : Rendered) : r.nodesWith within = nodesOfSlots within r.slots := by
  cases r
  rw [Rendered.nodesWith]

theorem nodesOfSlots_append (slots slots' : List Slot) :
    nodesOfSlots within (slots ++ slots') = nodesOfSlots within slots ++ nodesOfSlots within slots' := by
  induction slots with
  | nil => simp [nodesOfSlots]
  | cons slot slots ih => rw [List.cons_append, nodesOfSlots, nodesOfSlots, ih, List.append_assoc]

theorem nodesOfAll_eq (rs : List Rendered) : nodesOfAll within rs = nodesOfSlots within (slotsOf rs) := by
  induction rs with
  | nil => simp [nodesOfAll, nodesOfSlots]
  | cons r rs ih => rw [nodesOfAll, slotsOf_cons, nodesOfSlots_append, ih, nodesWith_eq]

theorem nodesOfSlots_flatMap (rs : List Rendered) :
    nodesOfSlots within (slotsOf rs) = rs.flatMap (·.nodesWith within) := by
  induction rs with
  | nil => simp [nodesOfSlots]
  | cons r rs ih => rw [slotsOf_cons, nodesOfSlots_append, ih, List.flatMap_cons, nodesWith_eq]

/-- The nodes of a plain slot are those of its parts, and then those that end it. -/
theorem Slot.nodesWith_plain {slot : Slot} (hslot : slot.Plain) :
    slot.nodesWith within = nodesOfSlots within (slotsOf slot.parts) ++ slot.ends := by
  rw [← nodesOfAll_eq]
  cases slot with
  | element | component => exact hslot.elim
  | branch witness developed =>
      cases developed <;> simp [Slot.nodesWith, Slot.parts, Slot.ends, nodesOfAll, nodesOfOption]
  | _ => simp [Slot.nodesWith, Slot.parts, Slot.ends, nodesOfAll]

end Nodes

/-- The nodes at the top of slots are those that stand under their parent. -/
theorem nodesOfSlots_placed {t : Array Instance} {slots : List Slot} {cs : List InstanceId}
    (hholds : Holds t slots cs) : ∀ {h : Host} {p : NodeId} {tops owned : List NodeId} {depth : Nat},
      Placed h t p slots tops owned → (∀ id ∈ cs, t.size ≤ depth + id.index) →
      nodesOfSlots (Rendered.nodesOfComponent t depth) slots = tops := by
  induction hholds with
  | nil =>
      intro h p tops owned depth hplaced hdepth
      cases hplaced
      rw [nodesOfSlots]
  | @part slot slots inner outer hslot _ _ _ ihinner ihouter =>
      intro h p tops owned depth hplaced hdepth
      rw [nodesOfSlots]
      cases hplaced with
      | component => exact absurd rfl (hslot _)
      | plain hplain hplacedInner hplacedOuter =>
          rw [Slot.nodesWith_plain hplain, ihinner hplacedInner fun id hid => hdepth id (by simp [hid]),
            ihouter hplacedOuter fun id hid => hdepth id (by simp [hid])]
      | element _ _ _ _ hplacedOuter =>
          rw [ihouter hplacedOuter fun id hid => hdepth id (by simp [hid]), Slot.nodesWith]
          rfl
  | @component id i r slots inner outer hpresent hdeveloped _ hlater _ _ ihinner ihouter =>
      intro h p tops owned depth hplaced hdepth
      rw [nodesOfSlots]
      rw [← List.singleton_append] at hplaced
      obtain ⟨own, rest, _, _, rfl, -, hown, hrest⟩ := hplaced.split
      obtain ⟨innerTops, witness, rfl, -, hwitness, hplacedInner⟩ := hown.of_component hpresent hdeveloped
      have hlt := (Array.getElem?_eq_some_iff.mp hpresent).1
      cases depth with
      | zero => exact absurd (hdepth id (by simp)) (by omega)
      | succ depth =>
          have hdepth' : ∀ child ∈ inner, t.size ≤ depth + child.index := by
            intro child hchild
            have hchild := hlater child hchild
            have hid := hdepth id (by simp)
            omega
          have hslot : (Slot.component id).nodesWith (Rendered.nodesOfComponent t (depth + 1)) =
              innerTops ++ [witness] := by
            simp only [Slot.nodesWith, Rendered.nodesOfComponent, hpresent, hdeveloped, hwitness]
            rw [nodesWith_eq, ihinner hplacedInner hdepth', Option.toList_some]
          rw [hslot, ihouter hrest fun child hchild => hdepth child (by simp [hchild])]

namespace Stands

variable {t : Array Instance} {p q : NodeId} {slots : List Slot} {slot : Slot}

theorem mono {slots' : List Slot} (h : Stands t p slots q slot) (hsub : ∀ slot ∈ slots, slot ∈ slots') :
    Stands t p slots' q slot := by
  cases h with
  | here hslot => exact .here (hsub _ hslot)
  | plain houter hplain hinner => exact .plain (hsub _ houter) hplain hinner
  | element houter hinner => exact .element (hsub _ houter) hinner
  | component houter hpresent hdeveloped hinner => exact .component (hsub _ houter) hpresent hdeveloped hinner

theorem cons (first : Slot) (h : Stands t p slots q slot) : Stands t p (first :: slots) q slot :=
  h.mono fun _ hslot => List.mem_cons_of_mem _ hslot

end Stands

namespace Placed

variable {h : Host} {t : Array Instance} {p q : NodeId} {slots : List Slot} {slot : Slot}
variable {tops owned content : List NodeId} {cs : List InstanceId}

/-- The elements under which more of an output stands are among its slots. -/
theorem concerned (hplaced : Placed h t p slots tops owned) :
    ∀ n ∈ owned, ∃ q kids, Stands t p slots q (.element n kids) := by
  induction hplaced with
  | nil => simp
  | plain hplain _ _ ihinner ihouter =>
      intro n hn
      rcases List.mem_append.mp hn with hn | hn
      · obtain ⟨q, kids, hstands⟩ := ihinner n hn
        exact ⟨q, kids, .plain List.mem_cons_self hplain hstands⟩
      · obtain ⟨q, kids, hstands⟩ := ihouter n hn
        exact ⟨q, kids, hstands.cons _⟩
  | element _ _ _ _ _ ihinner ihouter =>
      intro n hn
      rw [List.cons_append, List.mem_cons, List.mem_append] at hn
      rcases hn with rfl | hn | hn
      · exact ⟨_, _, .here List.mem_cons_self⟩
      · obtain ⟨q, kids, hstands⟩ := ihinner n hn
        exact ⟨q, kids, .element List.mem_cons_self hstands⟩
      · obtain ⟨q, kids, hstands⟩ := ihouter n hn
        exact ⟨q, kids, hstands.cons _⟩
  | component hpresent _ _ hdeveloped _ _ ihinner ihouter =>
      intro n hn
      rcases List.mem_append.mp hn with hn | hn
      · obtain ⟨q, kids, hstands⟩ := ihinner n hn
        exact ⟨q, kids, .component List.mem_cons_self hpresent hdeveloped hstands⟩
      · obtain ⟨q, kids, hstands⟩ := ihouter n hn
        exact ⟨q, kids, hstands.cons _⟩

/-- One of several slots stands somewhere among the nodes of all. -/
theorem of_mem (hplaced : Placed h t p slots tops owned) (hholds : Holds t slots cs) (hslot : slot ∈ slots) :
    ∃ own a mid c oa om oc, tops = a ++ mid ++ c ∧ owned = oa ++ om ++ oc ∧ Holds t [slot] own ∧
      Placed h t p [slot] mid om := by
  obtain ⟨before, after, rfl⟩ := List.append_of_mem hslot
  rw [← List.singleton_append] at hholds hplaced
  obtain ⟨_, _, rfl, -, hholds⟩ := hholds.split
  obtain ⟨own, _, rfl, hown, -⟩ := hholds.split
  obtain ⟨a, _, oa, _, rfl, rfl, -, hplaced⟩ := hplaced.split
  obtain ⟨mid, c, om, oc, rfl, rfl, hmid, -⟩ := hplaced.split
  exact ⟨own, a, mid, c, oa, om, oc, by simp, by simp, hown, hmid⟩

/-- An output stands for the nodes at the top of its slots. -/
theorem nodes_eq {r : Rendered} (hplaced : Placed h t p r.slots tops owned) (hholds : Holds t r.slots cs) :
    r.nodes t = tops := by
  rw [Rendered.nodes, nodesWith_eq]
  exact nodesOfSlots_placed hholds hplaced fun id _ => Nat.le_add_right _ _

/-- What a single slot with a witness stands for comes immediately before it. -/
theorem witnessed_here {witness : NodeId} (hplaced : Placed h t p [slot] tops owned) (hholds : Holds t [slot] cs)
    (hwitnessed : Witnessed t slot content witness) : tops = content ++ [witness] := by
  have hnodes := nodesOfSlots_placed hholds hplaced fun id _ => Nat.le_add_right t.size _
  rw [nodesOfSlots, nodesOfSlots, List.append_nil] at hnodes
  rw [← hnodes]
  cases hwitnessed with
  | @branch witness developed =>
      have hplain : (Slot.branch witness developed).Plain := trivial
      rw [Slot.nodesWith_plain hplain, nodesOfSlots_flatMap]
      rfl
  | @each witness items =>
      have hplain : (Slot.each witness items).Plain := trivial
      rw [Slot.nodesWith_plain hplain, nodesOfSlots_flatMap]
      rfl
  | raw => rw [Slot.nodesWith]
  | @component witness id i r hpresent hwitness hdeveloped =>
      rw [hnodes]
      obtain ⟨i₁, r₁, inner, -, hpresent₁, hdeveloped₁, -, -, hinner⟩ := hholds.of_component
      rw [hpresent] at hpresent₁
      cases hpresent₁
      rw [hdeveloped] at hdeveloped₁
      cases hdeveloped₁
      obtain ⟨innerTops, witness₁, rfl, -, hwitness₁, hplacedInner⟩ := hplaced.of_component hpresent hdeveloped
      rw [hwitness] at hwitness₁
      cases hwitness₁
      rw [hplacedInner.nodes_eq hinner]

/-- Wherever a slot stands, its nodes are among those at the top or among the children of an element. -/
theorem of_stands (hstands : Stands t p slots q slot) : ∀ {cs tops owned}, Placed h t p slots tops owned →
    Holds t slots cs → ∃ own mid om, Holds t [slot] own ∧ Placed h t q [slot] mid om ∧
      ((q = p ∧ ∃ before after, tops = before ++ mid ++ after) ∨
        (q ∈ owned ∧ ∃ before after, h.children q = before ++ mid ++ after)) := by
  induction hstands with
  | here hslot =>
      intro cs tops owned hplaced hholds
      obtain ⟨own, a, mid, c, oa, om, oc, rfl, rfl, hown, hmid⟩ := hplaced.of_mem hholds hslot
      exact ⟨own, mid, om, hown, hmid, .inl ⟨rfl, a, c, rfl⟩⟩
  | @plain _ _ _ outer _ houter hplain _ ih =>
      intro cs tops owned hplaced hholds
      obtain ⟨own, a, mid, c, oa, om, oc, rfl, rfl, hown, hmid⟩ := hplaced.of_mem hholds houter
      cases hown with
      | component => exact hplain.elim
      | part _ _ hinner =>
      cases hmid with
      | element => exact hplain.elim
      | component => exact hplain.elim
      | plain _ hplacedInner hplacedOuter =>
      cases hplacedOuter
      obtain ⟨own, mid, om, hown, hmid, hplace⟩ := ih hplacedInner hinner
      refine ⟨own, mid, om, hown, hmid, ?_⟩
      rcases hplace with ⟨rfl, before, after, rfl⟩ | ⟨hq, hchildren⟩
      · exact .inl ⟨rfl, a ++ before, after ++ outer.ends ++ c, by simp⟩
      · exact .inr ⟨by simp [hq], hchildren⟩
  | element houter _ ih =>
      intro cs tops owned hplaced hholds
      obtain ⟨own, a, mid, c, oa, om, oc, rfl, rfl, hown, hmid⟩ := hplaced.of_mem hholds houter
      cases hown with
      | part _ _ hinner =>
      cases hmid with
      | plain hplain => exact hplain.elim
      | element hchildren _ _ hplacedInner hplacedOuter =>
      cases hplacedOuter
      obtain ⟨own, mid, om, hown, hmid, hplace⟩ := ih hplacedInner hinner
      refine ⟨own, mid, om, hown, hmid, .inr ?_⟩
      rcases hplace with ⟨rfl, before, after, hbefore⟩ | ⟨hq, hkids⟩
      · exact ⟨by simp, before, after, hchildren.trans hbefore⟩
      · exact ⟨by simp [hq], hkids⟩
  | component houter hpresent hdeveloped _ ih =>
      intro cs tops owned hplaced hholds
      obtain ⟨own, a, mid, c, oa, om, oc, rfl, rfl, hown, hmid⟩ := hplaced.of_mem hholds houter
      obtain ⟨i₁, r₁, inner, -, hpresent₁, hdeveloped₁, -, -, hinner⟩ := hown.of_component
      rw [hpresent] at hpresent₁
      cases hpresent₁
      rw [hdeveloped] at hdeveloped₁
      cases hdeveloped₁
      obtain ⟨innerTops, last, rfl, -, -, hplacedInner⟩ := hmid.of_component hpresent hdeveloped
      obtain ⟨own, mid, om, hown, hmid, hplace⟩ := ih hplacedInner hinner
      refine ⟨own, mid, om, hown, hmid, ?_⟩
      rcases hplace with ⟨rfl, before, after, rfl⟩ | ⟨hq, hchildren⟩
      · exact .inl ⟨rfl, a ++ before, after ++ last :: c, by simp⟩
      · exact .inr ⟨by simp [hq], hchildren⟩

end Placed

/-- The output of a sentence is one block between the same nodes as ever, and in it, and among the children of
every element in it, what a slot stands for comes immediately before its witness. -/
structure Contiguous (p : NodeId) (before after : List NodeId) (r : Rendered) (σ : Stage ω) : Prop where
  block : σ.host.children p = before ++ r.nodes σ.instances ++ after
  top : ∀ {slot content witness}, Stands σ.instances p r.slots p slot →
    Witnessed σ.instances slot content witness →
    ∃ before after, r.nodes σ.instances = before ++ content ++ witness :: after
  inner : ∀ {q slot content witness}, Stands σ.instances p r.slots q slot →
    Witnessed σ.instances slot content witness →
    ∃ before after, σ.host.children q = before ++ content ++ witness :: after
  /-- Every component in the output has a witness. -/
  mounted : ∀ {q id}, Stands σ.instances p r.slots q (.component id) →
    ∃ content witness, Witnessed σ.instances (.component id) content witness

variable (T) in
/-- An output that stands in its place, as it does between two passes. -/
structure Standing (p : NodeId) (before after : List NodeId) (r : Rendered) (σ : Stage ω) (cs : List InstanceId)
    (tops owned : List NodeId) : Prop where
  paired : r.Paired
  holds : Holds σ.instances r.slots cs
  nodup : cs.Nodup
  placed : Placed σ.host σ.instances p r.slots tops owned
  block : Block T σ p before tops after owned

namespace Standing

variable {p : NodeId} {before after tops owned : List NodeId} {r r' : Rendered} {σ σ' : Stage ω}
variable {cs : List InstanceId}

theorem contiguous (h : Standing T p before after r σ cs tops owned) : Contiguous p before after r σ where
  block := by rw [h.placed.nodes_eq h.holds, h.block.children]
  top {slot content witness} hstands hwitnessed := by
    obtain ⟨own, mid, om, hown, hmid, hplace⟩ := Placed.of_stands hstands h.placed h.holds
    rw [h.placed.nodes_eq h.holds]
    obtain rfl := hmid.witnessed_here hown hwitnessed
    rcases hplace with ⟨-, a, c, rfl⟩ | ⟨hp, -⟩
    · exact ⟨a, c, by simp⟩
    · exact absurd hp (List.nodup_cons.mp h.block.distinct).1
  inner {q slot content witness} hstands hwitnessed := by
    obtain ⟨own, mid, om, hown, hmid, hplace⟩ := Placed.of_stands hstands h.placed h.holds
    obtain rfl := hmid.witnessed_here hown hwitnessed
    rcases hplace with ⟨rfl, a, c, rfl⟩ | ⟨-, a, c, hchildren⟩
    · exact ⟨before ++ a, c ++ after, by rw [h.block.children]; simp⟩
    · exact ⟨a, c, by rw [hchildren]; simp⟩
  mounted {q id} hstands := by
    obtain ⟨own, mid, om, hown, hmid, -⟩ := Placed.of_stands hstands h.placed h.holds
    obtain ⟨i, developed, inner, -, hpresent, hdeveloped, -, -, -⟩ := hown.of_component
    obtain ⟨innerTops, witness, -, -, hwitness, -⟩ := hmid.of_component hpresent hdeveloped
    exact ⟨_, witness, .component hpresent hwitness hdeveloped⟩

/-- What keeps a block in its place keeps an output standing. -/
theorem shift (h : Standing T p before after r σ cs tops owned) (hshift : ShiftAll T p Anywhere σ [r] σ' [r']) :
    ∃ cs' tops' owned', Standing T p before after r' σ' cs' tops' owned' := by
  have hpaired : ∀ r₁ ∈ [r], r₁.Paired := by simpa using h.paired
  obtain ⟨hpaired', hturn⟩ := hshift.renewal hpaired
  have hmoved := hshift.shift hpaired
  simp only [slotsOf_cons, slotsOf_nil, List.append_nil] at hturn hmoved
  obtain ⟨cs', hholds', hexchange⟩ := hturn cs h.holds (mounted_blind h.nodup)
  obtain ⟨tops', owned', hplaced', hblock', -⟩ := hmoved.moved h.holds h.nodup h.placed h.block trivial
  exact ⟨cs', tops', owned', hpaired' r' List.mem_cons_self, hholds', hexchange.mounted.nodup, hplaced', hblock'⟩

/-- So does anything that leaves alone the children of the parents concerned and the components that can be
reached. -/
theorem outside (h : Standing T p before after r σ cs tops owned) (hcount : σ.host.count ≤ σ'.host.count)
    (hchildren : ∀ n, Concerned σ.instances p r.slots n → σ'.host.children n = σ.host.children n)
    (hforeign : ∀ n, Concerned σ.instances p r.slots n → ¬ T.foreign σ'.world n)
    (hsound : ∀ n, T.foreign σ'.world n → n.index < σ'.host.count)
    (hagree : ∀ id, Reachable σ.instances r.slots id → Agree σ.instances σ'.instances id) :
    Standing T p before after r σ' cs tops owned := by
  have hconcerned : ∀ n ∈ p :: owned, Concerned σ.instances p r.slots n := by
    intro n hn
    rcases List.mem_cons.mp hn with rfl | hn
    · exact .inl rfl
    · exact .inr (h.placed.concerned n hn)
  have hheld : ∀ id ∈ cs, Agree σ.instances σ'.instances id := fun id hid =>
    hagree id (h.holds.mem_iff_reachable.mp hid)
  refine ⟨h.paired, h.holds.congr hheld, h.nodup, ?_, ?_, fun n hn => ?_, h.block.nodup, h.block.apart,
    fun n hn => ?_, h.block.distinct, hsound⟩
  · exact h.placed.congr h.holds hheld hcount fun n hn => hchildren n (hconcerned n (List.mem_cons_of_mem _ hn))
  · rw [hchildren p (.inl rfl), h.block.children]
  · exact Nat.lt_of_lt_of_le (h.block.made n hn) hcount
  · exact ⟨Nat.lt_of_lt_of_le (h.block.free n hn).lt hcount, hforeign n (hconcerned n hn)⟩

end Standing

section Runs

variable {e : Engine} {c : Cursor} {depth : Nat} {phrase : Phrase} {r : Rendered} {σ σ' : Stage ω}

variable (T) in
/-- What an output comes to in a run of successful passes under its parent: it is diffed, components in it are
rendered again, and in between anything may happen that leaves its block alone. -/
inductive Continued (p : NodeId) (r : Rendered) (σ : Stage ω) : Rendered → Stage ω → Prop
  | start : Continued p r σ r σ
  | diff {e : Engine} {c : Cursor} {depth : Nat} {phrase : Phrase} {previous next : Rendered} {σ₁ σ' : Stage ω}
      (hrun : Continued p r σ previous σ₁) (hparent : c.parent = p)
      (hpass : Engine.diffWithin b depth e c phrase previous σ₁ = .ok next σ') : Continued p r σ next σ'
  | update {depth : Nat} {r₁ : Rendered} {id : InstanceId} {σ₁ σ' : Stage ω} (hrun : Continued p r σ r₁ σ₁)
      (hid : Reachable σ₁.instances r₁.slots id)
      (hpass : Engine.update b (Engine.diffWithin b depth) id σ₁ = .ok () σ') : Continued p r σ r₁ σ'
  | outside {r₁ : Rendered} {σ₁ σ' : Stage ω} (hrun : Continued p r σ r₁ σ₁)
      (hcount : σ₁.host.count ≤ σ'.host.count)
      (hchildren : ∀ n, Concerned σ₁.instances p r₁.slots n → σ'.host.children n = σ₁.host.children n)
      (hforeign : ∀ n, Concerned σ₁.instances p r₁.slots n → ¬ T.foreign σ'.world n)
      (hsound : ∀ n, T.foreign σ'.world n → n.index < σ'.host.count)
      (hagree : ∀ id, Reachable σ₁.instances r₁.slots id → Agree σ₁.instances σ'.instances id) :
      Continued p r σ r₁ σ'

variable (T) in
/-- A cursor at which an output may be put: its parent is a node of the host that belongs to no hook, and an
anchor is a child of the parent. -/
structure Cursor.Ready (c : Cursor) (σ : Stage ω) : Prop where
  parent : Free T σ c.parent
  closed : σ.host.Closed
  anchor : ∀ a, c.anchor = some a → a ∈ σ.host.children c.parent
  sound : ∀ n, T.foreign σ.world n → n.index < σ.host.count

/-- The children of a parent, around the place that a cursor points at. -/
theorem Cursor.Ready.split (h : c.Ready T σ) :
    ∃ before after, σ.host.children c.parent = before ++ after ∧ At c.anchor before after := by
  cases hanchor : c.anchor with
  | none => exact ⟨_, [], (List.append_nil _).symm, rfl⟩
  | some a =>
      obtain ⟨before, after, hchildren, hbefore⟩ := List.eq_append_cons_of_mem (h.anchor a hanchor)
      exact ⟨before, a :: after, hchildren, hbefore, after, rfl⟩

theorem Continued.standing {p : NodeId} {before after : List NodeId} {r₁ : Rendered} {σ₁ : Stage ω}
    (hbare : ¬ T.bare) (h : ∃ cs tops owned, Standing T p before after r σ cs tops owned) (hrun : Continued T p r σ r₁ σ₁) :
    ∃ cs tops owned, Standing T p before after r₁ σ₁ cs tops owned := by
  induction hrun with
  | start => exact h
  | diff _ hparent hpass ih =>
      obtain ⟨cs, tops, owned, hstanding⟩ := ih
      subst hparent
      exact hstanding.shift (diffWithin_shift hpass (fun h => absurd h hbare) fun h => absurd h hbare)
  | update _ hid hpass ih =>
      obtain ⟨cs, tops, owned, hstanding⟩ := ih
      have hupdate := Engine.update_ok hpass
      have hwithin : Shift T p Anywhere _ _ _ _ := Shift.within hstanding.holds
        (hstanding.holds.mem_iff_reachable.mpr hid) fun p =>
          update_shift hbare diffWithin_shift (diffWithin_renewal (Watch.blind b)) hupdate
      refine hstanding.shift (.of_shift (by simpa using hstanding.paired) ?_)
      simpa only [slotsOf_cons, slotsOf_nil, List.append_nil] using hwithin
  | outside _ hcount hchildren hforeign hsound hagree ih =>
      obtain ⟨cs, tops, owned, hstanding⟩ := ih
      exact ⟨cs, tops, owned, hstanding.outside hcount hchildren hforeign hsound hagree⟩

/-- The output of a sentence is put among the children of its parent in one block where the cursor points, and
however it is brought up to date afterwards, the block stays there. -/
theorem output_contiguous (hhooks : ¬ T.bare) (hpass : Engine.renderWithin b depth e c phrase σ = .ok r σ')
    (hready : c.Ready T σ) :
    ∃ before after, σ.host.children c.parent = before ++ after ∧ At c.anchor before after ∧
      ∀ r₁ σ₁, Continued T c.parent r σ' r₁ σ₁ → Contiguous c.parent before after r₁ σ₁ := by
  obtain ⟨before, after, hsplit, hat⟩ := hready.split
  refine ⟨before, after, hsplit, hat, fun r₁ σ₁ hrun => ?_⟩
  have hblock : Block T σ c.parent before [] after [] := by
    refine ⟨by rw [hsplit, List.append_nil], fun n hn => hready.closed c.parent n ?_, List.nodup_nil, by simp,
      by simpa using hready.parent, by simp, hready.sound⟩
    rw [hsplit]
    simpa using hn
  have hshift := renderWithin_shift (T := T) hpass fun h => absurd h hhooks
  obtain ⟨hpaired, hturn⟩ := hshift.renewal (by simp)
  replace hshift := hshift.shift (by simp)
  rw [slotsOf_cons, slotsOf_nil, List.append_nil] at hturn hshift
  obtain ⟨cs, hholds, hexchange⟩ := hturn [] .nil (mounted_blind List.nodup_nil)
  obtain ⟨tops, owned, hplaced, hblock', -⟩ := hshift.moved .nil List.nodup_nil .nil hblock hat
  have hstanding : Standing T c.parent before after r σ' cs tops owned :=
    ⟨hpaired r List.mem_cons_self, hholds, hexchange.mounted.nodup, hplaced, hblock'⟩
  obtain ⟨_, _, _, hstanding₁⟩ := hrun.standing hhooks ⟨cs, tops, owned, hstanding⟩
  exact hstanding₁.contiguous

/-- Hooks that do nothing have no nodes of their own. -/
def Territory.inert : Territory Behaviour.inert where
  bare := False
  foreign _ _ := False
  act _ _ h := h
  count _ _ _ _ _ h := by
    cases h with
    | render hcall | diff hcall | remove hcall =>
        cases hcall
        exact Nat.le_refl _
  children _ _ _ _ _ h n _ _ := by
    cases h with
    | render hcall | diff hcall | remove hcall =>
        cases hcall
        rfl
  made _ _ _ _ _ _ _ h := h.elim

/-- A text and a component after it, put at the end of an empty root. -/
theorem output_contiguous_counter :
    ∃ r σ', Engine.plain.render Behaviour.inert Host.root
        (.plain [("text", [.str "Count"]), ("component", [.component ⟨"Counter", ⟨1⟩⟩, .null])])
        ⟨.new, #[], ()⟩ = .ok r σ' ∧ (r.nodes σ'.instances).length = 2 ∧
      ∃ before after, [] = before ++ after ∧ ∀ r₁ σ₁, Continued .inert Host.root r σ' r₁ σ₁ →
        Contiguous Host.root before after r₁ σ₁ := by
  have hcheck : Pass.check (Engine.plain.render Behaviour.inert Host.root
      (.plain [("text", [.str "Count"]), ("component", [.component ⟨"Counter", ⟨1⟩⟩, .null])]))
      ⟨.new, #[], ()⟩ (fun r σ => (r.nodes σ.instances).length == 2) = true := by rfl
  obtain ⟨r, σ', hpass, hlength⟩ := exists_of_check hcheck
  have hready : (Cursor.root Host.root).Ready .inert ⟨.new, #[], ()⟩ :=
    ⟨⟨by decide, fun h => h⟩, Host.closed_new, by rintro a ⟨⟩, by rintro n ⟨⟩⟩
  obtain ⟨before, after, hsplit, -, hcontiguous⟩ := output_contiguous (T := .inert) (fun h => h) hpass hready
  exact ⟨r, σ', hpass, by simpa using hlength, before, after, hsplit, hcontiguous⟩

end Runs

end Parlance
