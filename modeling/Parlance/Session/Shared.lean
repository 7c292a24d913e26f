import Parlance.Text.Quoted
import Parlance.Text.Sorted

/-! A row of shared texts. Places may share one text; a change at one place is never seen at another, because
a text that is shared is copied before it is changed. -/

namespace Parlance

/-- A text that may be shared: places with equal numbers share it. -/
structure SharedText where
  number : Nat
  text : String
deriving DecidableEq

structure SharedRow where
  places : List SharedText
  /-- The next number to be given out. -/
  supply : Nat

inductive SharedStep where
  | new (text : String)
  | clone (place : Nat)
  /-- Appends to the text at a place. -/
  | extend (place : Nat) (suffix : String)
  /-- Puts a copy of a text, with something appended, at the end of the row. -/
  | withSuffix (place : Nat) (suffix : String)
  | drop (place : Nat)
  | same (left right : Nat)
  | describe (place : Nat)

inductive SharedReply where
  | nothing
  | same (shared : Bool)
  | text (value : String)

namespace SharedRow

def empty : SharedRow := ⟨[], 0⟩

def texts (row : SharedRow) : List String := row.places.map (·.text)

/-- The text at a place; the row has to be so long. -/
def at? (row : SharedRow) (place : Nat) : Except String SharedText :=
  match row.places[place]? with
  | some t => .ok t
  | none => .error s!"index out of bounds: the len is {row.places.length} but the index is {place}"

def push (row : SharedRow) (text : String) : SharedRow := ⟨row.places ++ [⟨row.supply, text⟩], row.supply + 1⟩

/-- Whether more than one place shares a text. -/
def isShared (row : SharedRow) (t : SharedText) : Bool := 1 < (row.places.filter (·.number = t.number)).length

def perform (row : SharedRow) : SharedStep → Except String (SharedReply × SharedRow)
  | .new text => .ok (.nothing, row.push text)
  | .clone place => do
      let t ← row.at? place
      pure (.nothing, { row with places := row.places ++ [t] })
  | .extend place suffix => do
      let t ← row.at? place
      let number := if row.isShared t then row.supply else t.number
      pure (.nothing, ⟨row.places.set place ⟨number, t.text ++ suffix⟩, row.supply + 1⟩)
  | .withSuffix place suffix => do
      let t ← row.at? place
      pure (.nothing, row.push (t.text ++ suffix))
  | .drop place => do
      unless place < row.places.length do
        throw s!"removal index (is {place}) should be < len (is {row.places.length})"
      pure (.nothing, { row with places := row.places.eraseIdx place })
  | .same left right => do
      let a ← row.at? left
      let b ← row.at? right
      pure (.same (a.number = b.number), row)
  | .describe place => do
      let t ← row.at? place
      pure (.text (Text.quoted t.text), row)

/-- The replies to steps, each with the texts of the row afterwards. -/
def run (row : SharedRow) : List SharedStep → Except String (List (SharedReply × List String))
  | [] => .ok []
  | step :: steps => do
      let (reply, row) ← row.perform step
      pure ((reply, row.texts) :: (← row.run steps))

end SharedRow

end Parlance
