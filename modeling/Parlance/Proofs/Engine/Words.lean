import Parlance.Proofs.Engine.Succession

/-! The words that an output places on nodes, at any depth: the words inside a compound, a chosen branch, the items of
a list and the output of a component are carried out on the same node as the word that they stand for, and the words
inside a tag on its element. They are read off the output and the table of components, and the posts of the output are
theirs, one for each. -/

namespace Parlance

mutual

/-- The words inside a slot, each with the node that it is carried out on; `within` gives those of a component. -/
def Slot.wordsWith (within : InstanceId → List (NodeId × Lexem)) (p : NodeId) : Slot → List (NodeId × Lexem)
  | .element n kids => wordsOfAll within n kids
  | .branch _ developed => wordsOfOption within p developed
  | .each _ items => wordsOfAll within p items
  | .component id => within id
  | .compound developed => developed.wordsWith within p
  | _ => []

def Rendered.wordsWith (within : InstanceId → List (NodeId × Lexem)) (p : NodeId) :
    Rendered → List (NodeId × Lexem)
  | ⟨_, sentence, slots⟩ => wordsOfSlots within p sentence.lexems slots

def wordsOfSlots (within : InstanceId → List (NodeId × Lexem)) (p : NodeId) :
    List Lexem → List Slot → List (NodeId × Lexem)
  | lexem :: lexems, slot :: slots => slot.wordsWith within p ++ (p, lexem) :: wordsOfSlots within p lexems slots
  | _, _ => []

def wordsOfAll (within : InstanceId → List (NodeId × Lexem)) (p : NodeId) : List Rendered → List (NodeId × Lexem)
  | [] => []
  | r :: rs => r.wordsWith within p ++ wordsOfAll within p rs

def wordsOfOption (within : InstanceId → List (NodeId × Lexem)) (p : NodeId) :
    Option Rendered → List (NodeId × Lexem)
  | none => []
  | some r => r.wordsWith within p

end

namespace Rendered

/-- The words of a component. As for its nodes, the table bounds how deep components are nested. -/
def wordsOfComponent (table : Array Instance) : Nat → InstanceId → List (NodeId × Lexem)
  | 0, _ => []
  | depth + 1, id =>
      match table[id.index]? with
      | none => []
      | some i => wordsOfOption (wordsOfComponent table depth) i.parent i.developed

/-- The words of an output that stands under a parent. -/
def words (table : Array Instance) (p : NodeId) (r : Rendered) : List (NodeId × Lexem) :=
  r.wordsWith (wordsOfComponent table table.size) p

end Rendered

/-- The word of a post, with its node. -/
def Post.word (post : Post) : NodeId × Lexem := (post.node, post.lexem)

section Words

variable {within : InstanceId → List (NodeId × Lexem)} {p : NodeId}

theorem wordsWith_eq (r : Rendered) : r.wordsWith within p = wordsOfSlots within p r.sentence.lexems r.slots := by
  cases r
  rw [Rendered.wordsWith]

theorem wordsOfSlots_append {lexems : List Lexem} {slots : List Slot} (hlength : lexems.length = slots.length)
    (lexems' : List Lexem) (slots' : List Slot) :
    wordsOfSlots within p (lexems ++ lexems') (slots ++ slots') =
      wordsOfSlots within p lexems slots ++ wordsOfSlots within p lexems' slots' := by
  induction lexems generalizing slots with
  | nil =>
      obtain rfl := List.length_eq_zero_iff.mp hlength.symm
      simp [wordsOfSlots]
  | cons lexem lexems ih =>
      obtain ⟨slot, slots, rfl⟩ := List.exists_cons_of_length_eq_add_one hlength.symm
      rw [List.length_cons, List.length_cons, Nat.add_right_cancel_iff] at hlength
      simp only [List.cons_append, wordsOfSlots, ih hlength, List.append_assoc]

theorem wordsOfAll_eq {rs : List Rendered} (hpaired : ∀ r ∈ rs, r.Paired) :
    wordsOfAll within p rs = wordsOfSlots within p (lexemsOf rs) (slotsOf rs) := by
  induction rs with
  | nil => simp [wordsOfAll, wordsOfSlots]
  | cons r rs ih =>
      rw [wordsOfAll, lexemsOf_cons, slotsOf_cons, wordsOfSlots_append (hpaired r List.mem_cons_self).symm,
        ih fun r' hr' => hpaired r' (List.mem_cons_of_mem _ hr'), wordsWith_eq]

/-- The words inside a slot that is no component are those of its parts. -/
theorem Slot.wordsWith_part {slot : Slot} (hslot : ∀ id, slot ≠ .component id) (hpaired : ∀ r ∈ slot.parts, r.Paired) :
    slot.wordsWith within p =
      wordsOfSlots within (slot.inside p) (lexemsOf slot.parts) (slotsOf slot.parts) := by
  rw [← wordsOfAll_eq hpaired]
  cases slot with
  | component id => exact absurd rfl (hslot id)
  | branch witness developed =>
      cases developed <;> simp [Slot.wordsWith, Slot.parts, Slot.inside, wordsOfAll, wordsOfOption]
  | _ => simp [Slot.wordsWith, Slot.parts, Slot.inside, wordsOfAll]

end Words

variable {ρ : Regime} {t : Array Instance} {slots : List Slot} {cs : List InstanceId}

/-- The words of slots are those of their posts. -/
theorem wordsOfSlots_census (hholds : Holds t slots cs) :
    ∀ {p : NodeId} {lexems : List Lexem} {posts : List Post} {depth : Nat}, Census ρ t p lexems slots posts →
      (∀ id ∈ cs, t.size ≤ depth + id.index) →
      wordsOfSlots (Rendered.wordsOfComponent t depth) p lexems slots = posts.map Post.word := by
  induction hholds with
  | nil =>
      intro p lexems posts depth hcensus _
      cases hcensus
      rw [wordsOfSlots, List.map_nil]
      simp
  | @part slot slots inner outer hslot hpaired _ _ ihinner ihouter =>
      intro p lexems posts depth hcensus hdepth
      cases hcensus with
      | component => exact absurd rfl (hslot _)
      | part _ _ hcensusInner hcensusOuter =>
          rw [wordsOfSlots, Slot.wordsWith_part hslot hpaired, ihinner hcensusInner fun id hid => hdepth id (by simp [hid]),
            ihouter hcensusOuter fun id hid => hdepth id (by simp [hid]), List.map_append, List.map_cons]
          rfl
  | @component id i r slots inner outer hpresent hdeveloped _ hlater _ _ ihinner ihouter =>
      intro p lexems posts depth hcensus hdepth
      cases hcensus with
      | part hslot => exact absurd rfl (hslot _)
      | component hpresent₁ hparent _ _ hdeveloped₁ _ hcensusInner hcensusOuter =>
      rw [hpresent] at hpresent₁
      cases hpresent₁
      rw [hdeveloped] at hdeveloped₁
      cases hdeveloped₁
      have hlt := (Array.getElem?_eq_some_iff.mp hpresent).1
      cases depth with
      | zero => exact absurd (hdepth id (by simp)) (by omega)
      | succ depth =>
          have hdepth' : ∀ child ∈ inner, t.size ≤ depth + child.index := by
            intro child hchild
            have hchild := hlater child hchild
            have hid := hdepth id (by simp)
            omega
          have hslot : (Slot.component id).wordsWith (Rendered.wordsOfComponent t (depth + 1)) p =
              wordsOfSlots (Rendered.wordsOfComponent t depth) p r.sentence.lexems r.slots := by
            simp only [Slot.wordsWith, Rendered.wordsOfComponent, hpresent, hdeveloped, wordsOfOption, hparent]
            exact wordsWith_eq r
          rw [wordsOfSlots, hslot, ihinner hcensusInner hdepth',
            ihouter hcensusOuter fun child hchild => hdepth child (by simp [hchild]), List.map_append, List.map_cons]
          rfl

/-- The words of an output are those of its posts. -/
theorem Census.words {r : Rendered} {p : NodeId} {posts : List Post}
    (h : Census ρ t p r.sentence.lexems r.slots posts) (hholds : Holds t r.slots cs) :
    r.words t p = posts.map Post.word := by
  rw [Rendered.words, wordsWith_eq]
  exact wordsOfSlots_census hholds h fun id _ => Nat.le_add_right _ _

end Parlance
