import Parlance.Number.Layout

/-! Documents as they are written: compactly on one line, or with two blanks of indentation for every list
and object that is open. -/

namespace Parlance.Json

/-- A document that is to be written. -/
inductive Value where
  | null
  | bool (value : Bool)
  | number (value : Number)
  | text (value : String)
  | list (items : List Value)
  | object (entries : List (String × Value))

/-- Two lower-case hexadecimal digits. -/
def hexByte (n : Nat) : List Char := [Nat.digitChar (n / 16), Nat.digitChar (n % 16)]

/-- One character inside a text of a document. -/
def escapedChar (c : Char) : List Char :=
  if c = '"' then ['\\', '"']
  else if c = '\\' then ['\\', '\\']
  else if c = '\x08' then ['\\', 'b']
  else if c = '\t' then ['\\', 't']
  else if c = '\n' then ['\\', 'n']
  else if c = '\x0c' then ['\\', 'f']
  else if c = '\r' then ['\\', 'r']
  else if c.toNat < 0x20 then ['\\', 'u', '0', '0'] ++ hexByte c.toNat
  else [c]

def writeText (s : String) : String := String.ofList (['"'] ++ s.toList.flatMap escapedChar ++ ['"'])

mutual

/-- The compact form. -/
def Value.compact : Value → String
  | .null => "null"
  | .bool b => if b then "true" else "false"
  | .number n => n.toDocument
  | .text s => writeText s
  | .list items => "[" ++ ",".intercalate (compactItems items) ++ "]"
  | .object entries => "\x7b" ++ ",".intercalate (compactEntries entries) ++ "\x7d"

def compactItems : List Value → List String
  | [] => []
  | v :: vs => v.compact :: compactItems vs

def compactEntries : List (String × Value) → List String
  | [] => []
  | (k, v) :: vs => (writeText k ++ ":" ++ v.compact) :: compactEntries vs

end

def indentation (level : Nat) : String := String.ofList (List.replicate (2 * level) ' ')

/-- The parts of a list or object on lines of their own. -/
def block (level : Nat) (opening closing : String) : List String → String
  | [] => opening ++ closing
  | parts =>
      opening ++ "\n" ++ ",\n".intercalate (parts.map (indentation (level + 1) ++ ·)) ++ "\n" ++
        indentation level ++ closing

mutual

/-- The indented form of a value that stands inside `level` others. -/
def Value.pretty (level : Nat) : Value → String
  | .null => "null"
  | .bool b => if b then "true" else "false"
  | .number n => n.toDocument
  | .text s => writeText s
  | .list items => block level "[" "]" (prettyItems (level + 1) items)
  | .object entries => block level "\x7b" "\x7d" (prettyEntries (level + 1) entries)

def prettyItems (level : Nat) : List Value → List String
  | [] => []
  | v :: vs => v.pretty level :: prettyItems level vs

def prettyEntries (level : Nat) : List (String × Value) → List String
  | [] => []
  | (k, v) :: vs => (writeText k ++ ": " ++ v.pretty level) :: prettyEntries level vs

end

end Parlance.Json
