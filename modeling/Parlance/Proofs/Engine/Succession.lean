import Parlance.Proofs.Engine.Posts
import Parlance.Proofs.Engine.Tidiness

/-! How the words of one pass follow those of the pass before. Two outputs are compared lexem by lexem wherever a diff
goes from the one into the other, and that includes the outputs of components, which stand in the table: in the one
before the pass, and in the one after it. -/

namespace Parlance

variable {e : Engine} {R : Lexem → Lexem → Prop} {t t' t₁ t₁' : Array Instance}
variable {lexem lexem' : Lexem} {slot slot' : Slot}
variable {lexems lexems' lexems₂ lexems₂' : List Lexem} {slots slots' slots₂ slots₂' : List Slot}
variable {cs cs' : List InstanceId}

namespace Holds

theorem parts (h : Holds t (slot :: slots) cs) :
    ∃ inner, Holds t (slotsOf slot.parts) inner ∧ ∀ id ∈ inner, id ∈ cs := by
  cases h with
  | part _ _ hinner _ => exact ⟨_, hinner, fun id hid => List.mem_append_left _ hid⟩
  | component => exact ⟨[], .nil, by simp⟩

theorem tail (h : Holds t (slot :: slots) cs) : ∃ outer, Holds t slots outer ∧ ∀ id ∈ outer, id ∈ cs := by
  cases h with
  | part _ _ _ houter => exact ⟨_, houter, fun id hid => List.mem_append_right _ hid⟩
  | component _ _ _ _ _ houter =>
      exact ⟨_, houter, fun id hid => List.mem_append_right _ (List.mem_cons_of_mem _ hid)⟩

/-- A component that stands first is held, and so is what its output holds. -/
theorem output {id : InstanceId} (h : Holds t (.component id :: slots) cs) :
    id ∈ cs ∧ ∀ i r, t[id.index]? = some i → i.developed = some r →
      ∃ inner, Holds t r.slots inner ∧ ∀ child ∈ inner, child ∈ cs := by
  cases h with
  | part hslot => exact absurd rfl (hslot id)
  | component hpresent hdeveloped _ _ hinner _ =>
      refine ⟨by simp, fun i r hpresent' hdeveloped' => ?_⟩
      rw [hpresent] at hpresent'
      cases hpresent'
      rw [hdeveloped] at hdeveloped'
      cases hdeveloped'
      exact ⟨_, hinner, fun child hchild => List.mem_append_left _ hchild⟩

end Holds

variable (e R) in
/-- Lexems and slots, and those that come in their place: wherever a diff goes, each word is followed by the one in
its place. -/
inductive Follows (t t' : Array Instance) : List Lexem → List Slot → List Lexem → List Slot → Prop
  | gone {lexems : List Lexem} {slots : List Slot} : Follows t t' lexems slots [] []
  | fresh {lexems : List Lexem} {slots : List Slot} : Follows t t' [] [] lexems slots
  | cons {lexem lexem' : Lexem} {slot slot' : Slot} {lexems lexems' : List Lexem} {slots slots' : List Slot}
      (hword : R lexem' lexem)
      (hparts : e.renews lexem' lexem = false →
        Follows t t' (lexemsOf slot.parts) (slotsOf slot.parts) (lexemsOf slot'.parts) (slotsOf slot'.parts))
      (hcomponent : ∀ id i r i' r', slot = .component id → slot' = .component id → t[id.index]? = some i →
        i.developed = some r → t'[id.index]? = some i' → i'.developed = some r' →
        Follows t t' r.sentence.lexems r.slots r'.sentence.lexems r'.slots)
      (houter : Follows t t' lexems slots lexems' slots') :
      Follows t t' (lexem :: lexems) (slot :: slots) (lexem' :: lexems') (slot' :: slots')

/-- An output that a table agrees about is the same in both. -/
theorem developed_of_agree {id : InstanceId} {i : Instance} {r : Rendered} (h : Agree t t' id)
    (hpresent : t'[id.index]? = some i) (hdeveloped : i.developed = some r) :
    ∃ i', t[id.index]? = some i' ∧ i'.developed = some r := by
  have hback : Agree t' t id := Eq.symm h
  obtain ⟨i', hpresent', hcore⟩ := hback.some hpresent
  exact ⟨i', hpresent', (Instance.developed_of_core hcore).trans hdeveloped⟩

namespace Follows

/-- It is of no account in which tables the components stand, as long as these agree about what is held. -/
theorem congr (h : Follows e R t t' lexems slots lexems' slots') (hholds : Holds t slots cs)
    (hholds' : Holds t' slots' cs') (hagree : ∀ id ∈ cs, Agree t t₁ id) (hagree' : ∀ id ∈ cs', Agree t' t₁' id) :
    Follows e R t₁ t₁' lexems slots lexems' slots' := by
  induction h generalizing cs cs' with
  | gone => exact .gone
  | fresh => exact .fresh
  | cons hword _ _ _ ihparts ihcomponent ihouter =>
      obtain ⟨inner, hinner, hsub⟩ := hholds.parts
      obtain ⟨inner', hinner', hsub'⟩ := hholds'.parts
      obtain ⟨outer, houter, hrest⟩ := hholds.tail
      obtain ⟨outer', houter', hrest'⟩ := hholds'.tail
      refine .cons hword (fun hgo => ?_) ?_ ?_
      · exact ihparts hgo hinner hinner' (fun id hid => hagree id (hsub id hid)) fun id hid => hagree' id (hsub' id hid)
      · rintro id i r i' r' rfl rfl hpresent hdeveloped hpresent' hdeveloped'
        obtain ⟨hid, houtput⟩ := hholds.output
        obtain ⟨hid', houtput'⟩ := hholds'.output
        obtain ⟨j, hj, hjr⟩ := developed_of_agree (hagree id hid) hpresent hdeveloped
        obtain ⟨j', hj', hjr'⟩ := developed_of_agree (hagree' id hid') hpresent' hdeveloped'
        obtain ⟨own, hown, hmem⟩ := houtput j r hj hjr
        obtain ⟨own', hown', hmem'⟩ := houtput' j' r' hj' hjr'
        exact ihcomponent id j r j' r' rfl rfl hj hjr hj' hjr' hown hown'
          (fun child hchild => hagree child (hmem child hchild)) fun child hchild => hagree' child (hmem' child hchild)
      · exact ihouter houter houter' (fun id hid => hagree id (hrest id hid)) fun id hid => hagree' id (hrest' id hid)

/-- Outputs follow each other in every part. -/
theorem split (hlength : lexems.length = lexems'.length) (hslots : lexems.length = slots.length)
    (hslots' : lexems'.length = slots'.length)
    (h : Follows e R t t' (lexems ++ lexems₂) (slots ++ slots₂) (lexems' ++ lexems₂') (slots' ++ slots₂')) :
    Follows e R t t' lexems slots lexems' slots' ∧ Follows e R t t' lexems₂ slots₂ lexems₂' slots₂' := by
  induction lexems generalizing lexems' slots slots' with
  | nil =>
      obtain rfl := List.length_eq_zero_iff.mp hlength.symm
      obtain rfl := List.length_eq_zero_iff.mp hslots.symm
      obtain rfl := List.length_eq_zero_iff.mp hslots'.symm
      exact ⟨.gone, h⟩
  | cons lexem lexems ih =>
      obtain ⟨lexem', lexems', rfl⟩ := List.exists_cons_of_length_eq_add_one hlength.symm
      obtain ⟨slot, slots, rfl⟩ := List.exists_cons_of_length_eq_add_one hslots.symm
      obtain ⟨slot', slots', rfl⟩ := List.exists_cons_of_length_eq_add_one hslots'.symm
      simp only [List.length_cons, Nat.add_right_cancel_iff] at hlength hslots hslots'
      cases h with
      | cons hword hparts hcomponent houter =>
      obtain ⟨hfirst, hsecond⟩ := ih hlength hslots hslots' houter
      exact ⟨.cons hword hparts hcomponent hfirst, hsecond⟩

/-- What is left over is of no account. -/
theorem left (hlength : lexems.length = slots.length)
    (h : Follows e R t t' (lexems ++ lexems₂) (slots ++ slots₂) lexems' slots')
    (hmatched : lexems'.length = lexems.length) (hslots' : lexems'.length = slots'.length) :
    Follows e R t t' lexems slots lexems' slots' := by
  have hwhole : Follows e R t t' (lexems ++ lexems₂) (slots ++ slots₂) (lexems' ++ []) (slots' ++ []) := by
    simpa only [List.append_nil] using h
  exact (hwhole.split hmatched.symm hlength hslots').1

end Follows

namespace Regime

variable (ρ : Regime)

/-- Outputs follow each other as they should in a run. -/
def Follows (t : Array Instance) (lexems : List Lexem) (slots : List Slot) (t' : Array Instance)
    (lexems' : List Lexem) (slots' : List Slot) : Prop :=
  ∀ e, ρ.engine = some e → Parlance.Follows e ρ.follows t t' lexems slots lexems' slots'

namespace Follows

variable {ρ}

theorem gone : ρ.Follows t lexems slots t' [] [] := fun _ _ => .gone

theorem fresh : ρ.Follows t [] [] t' lexems slots := fun _ _ => .fresh

theorem congr (h : ρ.Follows t lexems slots t' lexems' slots') (hholds : Holds t slots cs)
    (hholds' : Holds t' slots' cs') (hagree : ∀ id ∈ cs, Agree t t₁ id) (hagree' : ∀ id ∈ cs', Agree t' t₁' id) :
    ρ.Follows t₁ lexems slots t₁' lexems' slots' := fun e he => (h e he).congr hholds hholds' hagree hagree'

theorem split (hlength : lexems.length = lexems'.length) (hslots : lexems.length = slots.length)
    (hslots' : lexems'.length = slots'.length)
    (h : ρ.Follows t (lexems ++ lexems₂) (slots ++ slots₂) t' (lexems' ++ lexems₂') (slots' ++ slots₂')) :
    ρ.Follows t lexems slots t' lexems' slots' ∧ ρ.Follows t lexems₂ slots₂ t' lexems₂' slots₂' :=
  ⟨fun e he => ((h e he).split hlength hslots hslots').1, fun e he => ((h e he).split hlength hslots hslots').2⟩

theorem left (hlength : lexems.length = slots.length)
    (h : ρ.Follows t (lexems ++ lexems₂) (slots ++ slots₂) t' lexems' slots')
    (hmatched : lexems'.length = lexems.length) (hslots' : lexems'.length = slots'.length) :
    ρ.Follows t lexems slots t' lexems' slots' := fun e he => (h e he).left hlength hmatched hslots'

/-- One word after another. -/
theorem word (h : ρ.Follows t [lexem] [slot] t' [lexem'] [slot']) {e : Engine} (he : ρ.engine = some e) :
    ρ.follows lexem' lexem := by
  cases h e he with
  | cons hword => exact hword

/-- What is inside a slot that a diff goes into. -/
theorem parts (h : ρ.Follows t [lexem] [slot] t' [lexem'] [slot'])
    (hgo : ∀ e, ρ.engine = some e → e.renews lexem' lexem = false) :
    ρ.Follows t (lexemsOf slot.parts) (slotsOf slot.parts) t' (lexemsOf slot'.parts) (slotsOf slot'.parts) := by
  intro e he
  cases h e he with
  | cons _ hparts => exact hparts (hgo e he)

/-- The output of a component that stays. -/
theorem output {id : InstanceId} {i i' : Instance} {r r' : Rendered}
    (h : ρ.Follows t [lexem] [.component id] t' [lexem'] [.component id]) (hpresent : t[id.index]? = some i)
    (hdeveloped : i.developed = some r) (hpresent' : t'[id.index]? = some i') (hdeveloped' : i'.developed = some r') :
    ρ.Follows t r.sentence.lexems r.slots t' r'.sentence.lexems r'.slots := by
  intro e he
  cases h e he with
  | cons _ _ hcomponent => exact hcomponent id i r i' r' rfl rfl hpresent hdeveloped hpresent' hdeveloped'

end Follows

end Regime

end Parlance
