import Parlance.Proofs.Engine.DiffStep
import Parlance.Proofs.Engine.Painting

/-! When a diff says all that there is to say. Lexems are gone through one by one, so a diff can be led astray in two
ways: a word that has lost all of its arguments is passed over, and where two words put an entry at one place of a
node, one may undo what the other has done. An output and the one that comes of it are tidy if neither happens
anywhere that the diff goes into. -/

namespace Parlance

variable {e : Engine} {lexem lexem' : Lexem} {slot slot' : Slot}
variable {lexems lexems' lexems₂ lexems₂' : List Lexem} {slots slots' slots₂ slots₂' : List Slot}

/-- Whether a diff puts something new in the place of what is inside a slot, and does not go into it. -/
def Engine.renews (e : Engine) (lexem old : Lexem) : Bool :=
  match e.instruction? lexem with
  | some .tag => (lexem.arg 0).toText != (old.arg 0).toText
  | some .ifElse => lexem.flips old .ifElse
  | some .switchUse => lexem.flips old .switchUse
  | _ => false

variable (e) in
/-- Lexems and slots, and those that come in their place: no word loses all of its arguments, and no word, old or
new, puts an entry where a later one had put one before. -/
inductive Tidy : List Lexem → List Slot → List Lexem → List Slot → Prop
  | gone {lexems : List Lexem} {slots : List Slot} : Tidy lexems slots [] []
  | fresh {lexems : List Lexem} {slots : List Slot} : Tidy [] [] lexems slots
  | cons {lexem lexem' : Lexem} {slot slot' : Slot} {lexems lexems' : List Lexem} {slots slots' : List Slot}
      (hargs : lexem'.args = [] → lexem.args = [])
      (hold : Clear (e.slotRows lexem slot) (e.rowsOfSlots lexems slots))
      (hnew : Clear (e.slotRows lexem' slot') (e.rowsOfSlots lexems slots))
      (hinner : e.renews lexem' lexem = false →
        Tidy (lexemsOf slot.parts) (slotsOf slot.parts) (lexemsOf slot'.parts) (slotsOf slot'.parts))
      (houter : Tidy lexems slots lexems' slots') :
      Tidy (lexem :: lexems) (slot :: slots) (lexem' :: lexems') (slot' :: slots')

namespace Clear

variable {rows rows' later later' : List Row}

theorem nil : Clear [] later := fun _ hπ => by simp at hπ

theorem none : Clear rows [] := fun _ _ => by simp

theorem append (h : Clear rows later) (h' : Clear rows' later) : Clear (rows ++ rows') later := fun π hπ => by
  rw [placesOf_append, List.mem_append] at hπ
  exact hπ.elim (h π) (h' π)

theorem left (h : Clear rows (later ++ later')) : Clear rows later := fun π hπ hmem =>
  h π hπ (by simp [hmem])

theorem right (h : Clear rows (later ++ later')) : Clear rows later' := fun π hπ hmem =>
  h π hπ (by simp [hmem])

theorem covered (h : Clear rows later) : Covered rows later later' := fun π hπ hmem => absurd hmem (h π hπ)

end Clear

/-- Tidy outputs are tidy in every part, and a part leaves the places of the next one alone. -/
theorem Tidy.split (hlength : lexems.length = lexems'.length) (hslots : lexems.length = slots.length)
    (hslots' : lexems'.length = slots'.length)
    (h : Tidy e (lexems ++ lexems₂) (slots ++ slots₂) (lexems' ++ lexems₂') (slots' ++ slots₂')) :
    Tidy e lexems slots lexems' slots' ∧ Tidy e lexems₂ slots₂ lexems₂' slots₂' ∧
      Clear (e.rowsOfSlots lexems slots) (e.rowsOfSlots lexems₂ slots₂) ∧
      Clear (e.rowsOfSlots lexems' slots') (e.rowsOfSlots lexems₂ slots₂) := by
  induction lexems generalizing lexems' slots slots' with
  | nil =>
      obtain rfl := List.length_eq_zero_iff.mp hlength.symm
      obtain rfl := List.length_eq_zero_iff.mp hslots.symm
      obtain rfl := List.length_eq_zero_iff.mp hslots'.symm
      exact ⟨.gone, h, by simpa [Engine.rowsOfSlots] using .nil, by simpa [Engine.rowsOfSlots] using .nil⟩
  | cons lexem lexems ih =>
      obtain ⟨lexem', lexems', rfl⟩ := List.exists_cons_of_length_eq_add_one hlength.symm
      obtain ⟨slot, slots, rfl⟩ := List.exists_cons_of_length_eq_add_one hslots.symm
      obtain ⟨slot', slots', rfl⟩ := List.exists_cons_of_length_eq_add_one hslots'.symm
      simp only [List.length_cons, Nat.add_right_cancel_iff] at hlength hslots hslots'
      cases h with
      | cons hargs hold hnew hinner houter =>
      simp only [List.append_eq, Engine.rowsOfSlots_append hslots] at hold hnew houter
      obtain ⟨hfirst, hsecond, hclear, hclear'⟩ := ih hlength hslots hslots' houter
      rw [Engine.rowsOfSlots, Engine.rowsOfSlots]
      exact ⟨.cons hargs hold.left hnew.left hinner hfirst, hsecond, hold.right.append hclear,
        hnew.right.append hclear'⟩

end Parlance
