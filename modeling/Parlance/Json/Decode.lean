import Parlance.Json.Draft

/-! Reading parts of a draft as values of a known shape. Every reader walks its part in the order of the
text and stops at the first problem. A part that had to be set aside until a later field said what it is
counts as buffered: its notation has been checked by then, so only its shape can still be wrong. -/

namespace Parlance.Json

/-- Whether a part is read where it stands or after it was set aside. -/
inductive Source where
  | streamed
  | buffered
deriving DecidableEq

/-- How many lists and objects may be open at once. -/
def depthLimit : Nat := 127

/-- The problem of a list that does not end as it should. -/
def Ending.listProblem : Ending → Except Problem Unit
  | .closed => .ok ()
  | .commaThenClosed => .error (.flaw .trailingComma)
  | .commaThenEnd => .error (.ended .value)
  | .textEnd => .error (.ended .list)
  | _ => .error (.flaw .expectedListEnd)

/-- The problem of an object that does not end as it should. -/
def Ending.objectProblem : Ending → Except Problem Unit
  | .closed => .ok ()
  | .commaThenClosed => .error (.flaw .trailingComma)
  | .commaThenEnd => .error (.ended .value)
  | .commaThenOther => .error (.flaw .keyNotText)
  | .textEnd => .error (.ended .object)
  | _ => .error (.flaw .expectedObjectEnd)

/-- The problem of a list that is passed over and does not end as it should. -/
def Ending.passedListProblem : Ending → Except Problem Unit
  | .commaThenClosed => .error (.flaw .expectedValue)
  | ending => ending.listProblem

/-- The problem of an object that is passed over and does not end as it should. -/
def Ending.passedObjectProblem : Ending → Except Problem Unit
  | .commaThenClosed => .error (.flaw .keyNotText)
  | .commaThenEnd => .error (.ended .object)
  | ending => ending.objectProblem

mutual

/-- Passes over a part that nobody asks for: only its notation matters. -/
def Draft.skip : Draft → Except Problem Unit
  | .broken stop => .error stop.passed
  | .text literal => literal.pass
  | .list items ending => do skipItems items; ending.passedListProblem
  | .object entries ending => do skipEntries entries; ending.passedObjectProblem
  | _ => .ok ()

def skipItems : List Draft → Except Problem Unit
  | [] => .ok ()
  | d :: ds => do d.skip; skipItems ds

def skipEntries : List (Literal × Draft) → Except Problem Unit
  | [] => .ok ()
  | (key, d) :: ds => do key.pass; d.skip; skipEntries ds

end

mutual

/-- Sets a part aside: its notation and its leaves are checked, and that no more than `depth` lists and
objects are open in it at once. -/
def Draft.buffer (depth : Nat) : Draft → Except Problem Unit
  | .null => .ok ()
  | .bool _ => .ok ()
  | .number n => n.map fun _ => ()
  | .text literal => literal.value.map fun _ => ()
  | .broken stop => .error stop.wanted
  | .list items ending => do
      if depth = 0 then throw (.flaw .tooDeep)
      bufferItems (depth - 1) items
      ending.listProblem
  | .object entries ending => do
      if depth = 0 then throw (.flaw .tooDeep)
      bufferEntries (depth - 1) entries
      ending.objectProblem

def bufferItems (depth : Nat) : List Draft → Except Problem Unit
  | [] => .ok ()
  | d :: ds => do d.buffer depth; bufferItems depth ds

def bufferEntries (depth : Nat) : List (Literal × Draft) → Except Problem Unit
  | [] => .ok ()
  | (key, d) :: ds => do
      let _ ← key.value
      d.buffer depth
      bufferEntries depth ds

end

/-- How a part is named when another kind was expected. -/
def Draft.found : Draft → Except Problem String
  | .null => .ok "null"
  | .bool b => .ok (if b then "boolean `true`" else "boolean `false`")
  | .number n => n.map Numeral.found
  | .text literal => literal.value.map fun t => "string " ++ Text.quoted t
  | .list _ _ => .ok "sequence"
  | .object _ _ => .ok "map"
  | .broken stop => .error stop.wanted

def Draft.wrongKind {α : Type} (d : Draft) (expected : String) : Except Problem α := do
  throw (.wrongKind (← d.found) expected)

def Draft.asBool : Draft → Except Problem Bool
  | .bool b => .ok b
  | d => d.wrongKind "a boolean"

def Draft.asNumber : Draft → Except Problem Number
  | .number n => n.map Numeral.toNumber
  | d => d.wrongKind "f64"

def Draft.asText : Draft → Except Problem String
  | .text literal => literal.value
  | d => d.wrongKind "a string"

/-- A part that opens a list or an object. -/
def Draft.opens : Draft → Bool
  | .list _ _ => true
  | .object _ _ => true
  | _ => false

/-- A part that says nothing more. -/
def Draft.asUnit (expected : String) : Draft → Except Problem Unit
  | .null => .ok ()
  | d => d.wrongKind expected

/-- Reads every item of a list. -/
def readAll {α : Type} (read : Draft → Except Problem α) : List Draft → Ending → Except Problem (List α)
  | [], ending => do ending.listProblem; pure []
  | d :: ds, ending => do
      let a ← read d
      let as ← readAll read ds ending
      pure (a :: as)

/-- Reads the entries of an object in order. The step takes a key it knows and its part, and passes on
what has been read so far; parts of unknown keys are passed over. -/
def readFields {σ : Type} (step : String → Draft → σ → Except Problem (Option σ)) (state : σ) :
    List (Literal × Draft) → Ending → Except Problem σ
  | [], ending => do ending.objectProblem; pure state
  | (key, d) :: rest, ending => do
      match ← step (← key.value) d state with
      | some next => readFields step next rest ending
      | none => do d.skip; readFields step state rest ending

/-- Reads a field that must not have been seen before. -/
def once {α : Type} (field : String) (seen : Option α) (value : Except Problem α) : Except Problem α :=
  if seen.isSome then .error (.duplicate field) else value

/-- Takes the next element of a record written as a list, if there is one. -/
def nextElement {α : Type} (read : Draft → Except Problem α) :
    List Draft → Ending → Except Problem (Option α × List Draft)
  | [], ending => do ending.listProblem; pure (none, [])
  | d :: ds, _ => do pure (some (← read d), ds)

/-- Ends a record written as a list after `count` elements of it were taken. -/
def endElements (source : Source) (count : Nat) (rest : List Draft) (ending : Ending) : Except Problem Unit :=
  match source, rest, ending with
  | _, [], .closed => .ok ()
  | .streamed, [], .commaThenClosed => .error (.flaw .trailingComma)
  | .streamed, [], .textEnd => .error (.ended .list)
  | .streamed, _, _ => .error (.flaw .trailingCharacters)
  | .buffered, rest, _ =>
      .error (.wrongLength (count + rest.length)
        (if count = 1 then "1 element in sequence" else s!"{count} elements in sequence"))

/-- The value that has a name. -/
def variantNamed {α : Type} (known : List (String × α)) (name : String) : Except Problem α :=
  match known.lookup name with
  | some a => .ok a
  | none => .error (.unknownVariant name (known.map (·.1)))

/-- Reads one of several names: a text, or an object with the name as its only key and nothing as its
value. The number says how many more lists and objects may be opened. -/
def Draft.asVariant {α : Type} (known : List (String × α)) (source : Source) (depth : Nat) (d : Draft) :
    Except Problem α :=
  match source, d with
  | _, .text literal => do variantNamed known (← literal.value)
  | .streamed, .object entries ending => do
      if depth = 0 then throw (.flaw .tooDeep)
      match entries, ending with
      | (.broken ⟨.flaw .keyNotText, _⟩, value) :: _, _ => value.wrongKind "variant identifier"
      | (key, value) :: rest, ending =>
          let a ← variantNamed known (← key.value)
          value.asUnit "unit"
          match rest, ending with
          | [], .closed => pure a
          | [], .textEnd => throw (.ended .object)
          | _, _ => throw (.flaw .expectedValue)
      | [], .textEnd => throw (.ended .value)
      | [], _ => throw (.flaw .expectedValue)
  | .streamed, .broken stop => .error stop.wanted
  | .streamed, _ => .error (.flaw .expectedValue)
  | .buffered, .object [(key, value)] _ => do
      let a ← variantNamed known (← key.value)
      match value with
      | .object [] _ => pure a
      | value => do value.asUnit "unit"; pure a
  | .buffered, .object _ _ => .error (.shape "invalid value: map, expected map with a single key")
  | .buffered, d => d.wrongKind "string or map"

/-- Reads one of several names that stands in a list in front of what it names. A part that was set aside
may also give the place of the name among them. -/
def Draft.asLeadingVariant {α : Type} (known : List (String × α)) (source : Source) (d : Draft) :
    Except Problem α :=
  match source, d with
  | _, .text literal => do variantNamed known (← literal.value)
  | .buffered, .number (.ok (.natural n)) =>
      match known[n]? with
      | some (_, a) => .ok a
      | none =>
          .error (.shape s!"invalid value: integer `{n}`, expected variant index 0 <= i < {known.length}")
  | _, d => d.wrongKind "variant identifier"

/-- Reads a whole text as one value. -/
def decode {α : Type} (read : Draft → Except Problem α) (text : String) : Except Problem α := do
  let (draft, trailing) := Draft.ofText text
  let a ← read draft
  if trailing then throw (.flaw .trailingCharacters)
  pure a

end Parlance.Json
