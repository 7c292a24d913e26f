import Parlance.Json.Numeral

/-! A document as far as it could be read. A flaw of the notation does not spoil what stands before it:
it is kept in its place in the tree, so that a reader who walks the tree in order meets the problems of
notation and the problems of shape in the order of the text. Flaws that only matter to someone who asks
for the value, such as a numeral that is too large, are kept inside the leaf. An object whose first key is
no text keeps the part that stands there, because where a name is expected the kind of that part is told. -/

namespace Parlance.Json

/-- How a list or an object comes to its end. -/
inductive Ending where
  | closed
  | commaThenClosed
  | commaThenEnd
  | commaThenOther
  | textEnd
  | other
  /-- Nothing more was read, because the last part inside could not be. -/
  | lost
deriving DecidableEq

/-- Why the reading of a part had to stop: the problem for someone who wants the value, and the one for
someone who passes over it. -/
structure Stop where
  wanted : Problem
  passed : Problem

/-- A stop that is the same for everybody. -/
def Stop.both (p : Problem) : Stop := ⟨p, p⟩

/-- A text between quotes. -/
inductive Literal where
  | read (value : String)
  /-- The text has an end, but it holds an escape that stands for no character. -/
  | flawed (problem : Problem)
  | broken (stop : Stop)

/-- What the text says. -/
def Literal.value : Literal → Except Problem String
  | read value => .ok value
  | flawed problem => .error problem
  | broken stop => .error stop.wanted

/-- Passes over the text. -/
def Literal.pass : Literal → Except Problem Unit
  | broken stop => .error stop.passed
  | _ => .ok ()

inductive Draft where
  | null
  | bool (value : Bool)
  | number (value : Except Problem Numeral)
  | text (value : Literal)
  | list (items : List Draft) (ending : Ending)
  | object (entries : List (Literal × Draft)) (ending : Ending)
  | broken (stop : Stop)

/-- What was read, and the characters after it unless reading had to stop. -/
abbrev Read (α : Type) := α × Option (List Char)

/-- Nothing could be read. -/
def Draft.stopped (p : Problem) : Read Draft := (.broken (.both p), none)

def isSpace (c : Char) : Bool := c = ' ' || c = '\n' || c = '\t' || c = '\r'

def skipSpace (cs : List Char) : List Char := cs.dropWhile isSpace

/-- Reads the rest of one of the three words. -/
def readWord (value : Draft) : List Char → List Char → Read Draft
  | [], cs => (value, some cs)
  | _ :: _, [] => Draft.stopped (.ended .value)
  | w :: ws, c :: cs => if w = c then readWord value ws cs else Draft.stopped (.flaw .expectedWord)

/-- A numeral that lacks a digit. Only someone who wants its value can tell an early end from a wrong
character. -/
def missingDigit : List Char → Read Draft
  | [] => (.broken ⟨.ended .value, .flaw .invalidNumber⟩, none)
  | _ :: _ => Draft.stopped (.flaw .invalidNumber)

/-- Reads a numeral after its sign. -/
def readNumeral (negative : Bool) (cs : List Char) : Read Draft :=
  let whole := cs.takeWhile Char.isDigit
  let rest := cs.drop whole.length
  if whole.isEmpty then missingDigit rest
  else if whole.head? = some '0' ∧ 1 < whole.length then Draft.stopped (.flaw .invalidNumber)
  else
    let finish (fraction : Option (List Char)) (rest : List Char) : Read Draft :=
      let done (exponent : Option (Bool × List Char)) (rest : List Char) : Read Draft :=
        (.number (Written.value ⟨negative, whole, fraction, exponent⟩), some rest)
      match rest with
      | e :: rest' =>
          if e = 'e' ∨ e = 'E' then
            let (down, rest') := match rest' with
              | '+' :: r => (false, r)
              | '-' :: r => (true, r)
              | r => (false, r)
            let digits := rest'.takeWhile Char.isDigit
            if digits.isEmpty then missingDigit rest'
            else done (some (down, digits)) (rest'.drop digits.length)
          else done none rest
      | [] => done none []
    match rest with
    | '.' :: rest =>
        let fraction := rest.takeWhile Char.isDigit
        if fraction.isEmpty then missingDigit rest
        else finish (some fraction) (rest.drop fraction.length)
    | rest => finish none rest

def hexValue? (c : Char) : Option Nat :=
  if c.isDigit then some (c.toNat - '0'.toNat)
  else if 'a' ≤ c ∧ c ≤ 'f' then some (c.toNat - 'a'.toNat + 10)
  else if 'A' ≤ c ∧ c ≤ 'F' then some (c.toNat - 'A'.toNat + 10)
  else none

/-- Four hexadecimal digits, and what stands after them. -/
def readHex (cs : List Char) : Except Problem (Nat × List Char) :=
  if (cs.foldl (fun n c => n + c.utf8Size) 0) < 4 then .error (.ended .text)
  else match cs with
    | a :: b :: c :: d :: rest =>
        match hexValue? a, hexValue? b, hexValue? c, hexValue? d with
        | some a, some b, some c, some d => .ok (((a * 16 + b) * 16 + c) * 16 + d, rest)
        | _, _, _, _ => .error (.flaw .invalidEscape)
    | _ => .error (.flaw .invalidEscape)

/-- The character of a short escape. -/
def shortEscape? : Char → Option Char
  | '"' => some '"'
  | '\\' => some '\\'
  | '/' => some '/'
  | 'b' => some '\x08'
  | 'f' => some '\x0c'
  | 'n' => some '\n'
  | 'r' => some '\r'
  | 't' => some '\t'
  | _ => none

/-- An escape by code point: the character or the pair's flaw, and what stands after the escape. Digits
that are missing or wrong end the reading. -/
def readCodePoint (cs : List Char) : Except Problem (Except Problem Char × List Char) := do
  let (n, rest) ← readHex cs
  if 0xDC00 ≤ n ∧ n ≤ 0xDFFF then return (.error (.flaw .loneSurrogate), rest)
  else if n < 0xD800 ∨ 0xDBFF < n then return (.ok (Char.ofNat n), rest)
  else match rest with
    | '\\' :: 'u' :: low => do
        let (m, rest') ← readHex low
        if m < 0xDC00 ∨ 0xDFFF < m then return (.error (.flaw .loneSurrogate), rest)
        else return (.ok (Char.ofNat (0x10000 + (n - 0xD800) * 0x400 + (m - 0xDC00))), rest')
    | [] => .error (.ended .text)
    | ['\\'] => .error (.ended .text)
    | _ => return (.error (.flaw .surrogateCutShort), rest)

/-- Reads a text after its opening quote; `flaw` is the first flaw that only matters to someone who wants
the value, and `read` holds the characters so far, backwards. -/
def readText : Nat → Option Problem → List Char → List Char → Read Literal
  | 0, _, _, _ => (.broken (.both (.ended .text)), none)
  | fuel + 1, flaw, read, cs =>
      let stop (p : Problem) : Read Literal := (.broken ⟨flaw.getD p, p⟩, none)
      match cs with
      | [] => stop (.ended .text)
      | '"' :: rest =>
          (match flaw with | some p => .flawed p | none => .read (String.ofList read.reverse), some rest)
      | ['\\'] => stop (.ended .text)
      | '\\' :: 'u' :: rest =>
          match readCodePoint rest with
          | .error p => stop p
          | .ok (.ok c, rest) => readText fuel flaw (c :: read) rest
          | .ok (.error p, rest) => readText fuel (flaw <|> some p) read rest
      | '\\' :: e :: rest =>
          match shortEscape? e with
          | some c => readText fuel flaw (c :: read) rest
          | none => stop (.flaw .invalidEscape)
      | c :: rest =>
          if c.toNat < 0x20 then stop (.flaw .controlCharacter) else readText fuel flaw (c :: read) rest

mutual

/-- Reads one value. The fuel bounds the number of parts that are entered. -/
def readValue : Nat → List Char → Read Draft
  | 0, _ => Draft.stopped (.ended .value)
  | fuel + 1, cs =>
      match skipSpace cs with
      | [] => Draft.stopped (.ended .value)
      | 'n' :: rest => readWord .null ['u', 'l', 'l'] rest
      | 't' :: rest => readWord (.bool true) ['r', 'u', 'e'] rest
      | 'f' :: rest => readWord (.bool false) ['a', 'l', 's', 'e'] rest
      | '"' :: rest =>
          let (literal, rest) := readText (rest.length + 1) none [] rest
          (.text literal, rest)
      | '-' :: rest => readNumeral true rest
      | '[' :: rest =>
          match skipSpace rest with
          | ']' :: rest => (.list [] .closed, some rest)
          | [] => (.list [] .textEnd, none)
          | rest => let ((items, ending), rest) := readItems fuel rest; (.list items ending, rest)
      | '\x7b' :: rest =>
          match skipSpace rest with
          | '\x7d' :: rest => (.object [] .closed, some rest)
          | [] => (.object [] .textEnd, none)
          | '"' :: rest =>
              let ((entries, ending), rest) := readEntries fuel ('"' :: rest)
              (.object entries ending, rest)
          | rest =>
              (.object [(.broken (.both (.flaw .keyNotText)), (readValue fuel rest).1)] .lost, none)
      | c :: rest => if c.isDigit then readNumeral false (c :: rest) else Draft.stopped (.flaw .expectedValue)

/-- Reads items from the first character of one to the end of the list. -/
def readItems : Nat → List Char → Read (List Draft × Ending)
  | 0, _ => (([], .textEnd), none)
  | fuel + 1, cs =>
      match readValue fuel cs with
      | (item, none) => (([item], .lost), none)
      | (item, some rest) =>
          match skipSpace rest with
          | ']' :: rest => (([item], .closed), some rest)
          | [] => (([item], .textEnd), none)
          | ',' :: rest =>
              match skipSpace rest with
              | ']' :: _ => (([item], .commaThenClosed), none)
              | [] => (([item], .commaThenEnd), none)
              | rest => let ((items, ending), rest) := readItems fuel rest; ((item :: items, ending), rest)
          | _ => (([item], .other), none)

/-- Reads entries from the first character of a key to the end of the object. -/
def readEntries : Nat → List Char → Read (List (Literal × Draft) × Ending)
  | 0, _ => (([], .textEnd), none)
  | fuel + 1, cs =>
      match cs with
      | '"' :: rest =>
          match readText (rest.length + 1) none [] rest with
          | (key, none) => (([(key, .null)], .lost), none)
          | (key, some rest) =>
              match skipSpace rest with
              | [] => (([(key, .broken (.both (.ended .object)))], .lost), none)
              | ':' :: rest =>
                  match readValue fuel rest with
                  | (value, none) => (([(key, value)], .lost), none)
                  | (value, some rest) =>
                      match skipSpace rest with
                      | '\x7d' :: rest => (([(key, value)], .closed), some rest)
                      | [] => (([(key, value)], .textEnd), none)
                      | ',' :: rest =>
                          match skipSpace rest with
                          | '\x7d' :: _ => (([(key, value)], .commaThenClosed), none)
                          | [] => (([(key, value)], .commaThenEnd), none)
                          | rest =>
                              let ((entries, ending), rest) := readEntries fuel rest
                              (((key, value) :: entries, ending), rest)
                      | _ => (([(key, value)], .other), none)
              | _ => (([(key, .broken (.both (.flaw .expectedColon)))], .lost), none)
      | _ => (([], .commaThenOther), none)

end

/-- Reads a whole text: the value, and whether anything but white space stands after it. -/
def Draft.ofText (text : String) : Draft × Bool :=
  let cs := text.toList
  match readValue (2 * cs.length + 2) cs with
  | (value, some rest) => (value, !(skipSpace rest).isEmpty)
  | (value, none) => (value, false)

end Parlance.Json
