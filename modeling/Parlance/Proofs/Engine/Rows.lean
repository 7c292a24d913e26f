import Parlance.Proofs.Engine.Placing
import Parlance.Proofs.Host.Entries

/-! What an output shows, row by row: the entries that it puts on its parent and the nodes that it puts under
it. Rows are read off the lexems of an output and its slots, and the ids of nodes do not matter to them. -/

namespace Parlance

inductive Row where
  | entry (place : Place) (value : Scalar)
  | text (value : String)
  | raw (markup : String)
  | marker (label : String)
  | element (tag : String) (inner : List Row)

/-- The entries among rows, in order. -/
def entriesOf : List Row → List (Place × Scalar)
  | [] => []
  | .entry place value :: rows => (place, value) :: entriesOf rows
  | _ :: rows => entriesOf rows

namespace Engine

/-- The entries that a lexem puts on its parent. -/
def entries (e : Engine) (lexem : Lexem) : List (Place × Scalar) :=
  (((e.instruction? lexem).bind lexem.writes).getD []).map Write.entry

/-- What the marker of a choice says. -/
def choiceLabel (e : Engine) (lexem : Lexem) : String :=
  if e.instruction? lexem = some .ifElse then "if" else "switchUse"

mutual

def slotRows (e : Engine) (lexem : Lexem) : Slot → List Row
  | .attribute => (e.entries lexem).map fun entry => .entry entry.1 entry.2
  | .element _ kids => [.element (lexem.arg 0).toText (e.rowsOfAll kids)]
  | .text _ => [.text (lexem.arg 0).toText]
  | .branch _ developed => e.rowsOfOption developed ++ [.marker (e.markerText (e.choiceLabel lexem))]
  | .each _ items => e.rowsOfAll items ++ [.marker (e.markerText "each")]
  | .raw _ _ => [.raw (lexem.arg 0).toText, .marker (e.markerText "html")]
  | .compound developed => e.rows developed
  | _ => []

def rows (e : Engine) : Rendered → List Row
  | ⟨_, sentence, slots⟩ => e.rowsOfSlots sentence.lexems slots

def rowsOfSlots (e : Engine) : List Lexem → List Slot → List Row
  | lexem :: lexems, slot :: slots => e.slotRows lexem slot ++ e.rowsOfSlots lexems slots
  | _, _ => []

def rowsOfAll (e : Engine) : List Rendered → List Row
  | [] => []
  | r :: rs => e.rows r ++ e.rowsOfAll rs

def rowsOfOption (e : Engine) : Option Rendered → List Row
  | none => []
  | some r => e.rows r

end

/-- The rows of a plain slot that come after those of its parts. -/
def ownRows (e : Engine) (lexem : Lexem) : Slot → List Row
  | .attribute => (e.entries lexem).map fun entry => .entry entry.1 entry.2
  | .text _ => [.text (lexem.arg 0).toText]
  | .branch _ _ => [.marker (e.markerText (e.choiceLabel lexem))]
  | .each _ _ => [.marker (e.markerText "each")]
  | .raw _ _ => [.raw (lexem.arg 0).toText, .marker (e.markerText "html")]
  | _ => []

end Engine

theorem entriesOf_append (rows rows' : List Row) : entriesOf (rows ++ rows') = entriesOf rows ++ entriesOf rows' := by
  induction rows with
  | nil => rfl
  | cons row rows ih => cases row <;> simp [entriesOf, ih]

theorem entriesOf_map (entries : List (Place × Scalar)) :
    entriesOf (entries.map fun entry => .entry entry.1 entry.2) = entries := by
  induction entries with
  | nil => rfl
  | cons entry entries ih => rw [List.map_cons, entriesOf, ih]

/-- What rows leave at a place of their parent. -/
def shownAt (rows : List Row) (π : Place) : Option Scalar := lastAt (entriesOf rows) π

/-- The places of the parent at which rows put something. -/
def placesOf (rows : List Row) : List Place := (entriesOf rows).map (·.1)

@[simp] theorem shownAt_nil (π : Place) : shownAt [] π = none := rfl

theorem shownAt_append (rows rows' : List Row) (π : Place) :
    shownAt (rows ++ rows') π = (shownAt rows' π).or (shownAt rows π) := by
  rw [shownAt, entriesOf_append, lastAt_append]
  rfl

theorem shownAt_eq_none {rows : List Row} {π : Place} : shownAt rows π = none ↔ π ∉ placesOf rows :=
  lastAt_eq_none

theorem shownAt_isSome {rows : List Row} {π : Place} : (shownAt rows π).isSome ↔ π ∈ placesOf rows := by
  rw [Option.isSome_iff_ne_none, ne_eq, shownAt_eq_none, not_not]

theorem shownAt_of_mem {rows : List Row} {π : Place} (hπ : π ∈ placesOf rows) : ∃ value, shownAt rows π = some value :=
  Option.isSome_iff_exists.mp (shownAt_isSome.mpr hπ)

@[simp] theorem placesOf_nil : placesOf [] = [] := rfl

@[simp] theorem placesOf_append (rows rows' : List Row) :
    placesOf (rows ++ rows') = placesOf rows ++ placesOf rows' := by
  rw [placesOf, entriesOf_append, List.map_append]
  rfl

namespace Engine

variable {e : Engine}

theorem rows_eq (r : Rendered) : e.rows r = e.rowsOfSlots r.sentence.lexems r.slots := by
  cases r
  rw [rows]

theorem rowsOfSlots_append {lexems lexems' : List Lexem} {slots slots' : List Slot}
    (hlength : lexems.length = slots.length) :
    e.rowsOfSlots (lexems ++ lexems') (slots ++ slots') =
      e.rowsOfSlots lexems slots ++ e.rowsOfSlots lexems' slots' := by
  induction lexems generalizing slots with
  | nil =>
      cases slots with
      | nil => simp [rowsOfSlots]
      | cons => simp at hlength
  | cons lexem lexems ih =>
      cases slots with
      | nil => simp at hlength
      | cons slot slots =>
          rw [List.length_cons, List.length_cons, Nat.add_right_cancel_iff] at hlength
          rw [List.cons_append, List.cons_append, rowsOfSlots, rowsOfSlots, ih hlength, List.append_assoc]

/-- The rows of outputs are the rows of their slots. -/
theorem rowsOfAll_eq {rs : List Rendered} (hpaired : ∀ r ∈ rs, r.Paired) :
    e.rowsOfAll rs = e.rowsOfSlots (lexemsOf rs) (slotsOf rs) := by
  induction rs with
  | nil => simp [rowsOfAll, lexemsOf, rowsOfSlots]
  | cons r rs ih =>
      rw [lexemsOf_cons, slotsOf_cons, rowsOfSlots_append (hpaired r List.mem_cons_self).symm, rowsOfAll,
        ih fun r' hr' => hpaired r' (List.mem_cons_of_mem _ hr'), rows_eq]

theorem slotRows_plain (lexem : Lexem) {slot : Slot} (hslot : slot.Plain) :
    e.slotRows lexem slot = e.rowsOfAll slot.parts ++ e.ownRows lexem slot := by
  cases slot with
  | element | component => exact hslot.elim
  | branch witness developed =>
      cases developed <;> simp [slotRows, rowsOfOption, Slot.parts, rowsOfAll, ownRows]
  | _ => simp [slotRows, Slot.parts, rowsOfAll, ownRows]

end Engine

end Parlance
