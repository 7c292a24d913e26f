import Parlance.Document.Basic
import Parlance.Json.Decode
import Parlance.Json.Value

/-! The written form of documents. A sentence is an object of its lexicon, level and lexems, a lexem one of
its namespace, name and arguments, and an argument one of its type and, except for null, its value. When
reading, fields may come in any order, unknown ones are passed over, and an object may also be written as
the list of its fields. -/

namespace Parlance

open Json

/-- The types of arguments in documents. -/
inductive ArgType where
  | null
  | bool
  | number
  | str
  | sentence
  | list
deriving DecidableEq

def ArgType.named : List (String × ArgType) :=
  [("null", .null), ("bool", .bool), ("number", .number), ("str", .str), ("sentence", .sentence),
    ("list", .list)]

mutual

def ArgDoc.toJson : ArgDoc → Value
  | .null => .object [("type", .text "null")]
  | .bool b => .object [("type", .text "bool"), ("value", .bool b)]
  | .number n => .object [("type", .text "number"), ("value", .number n)]
  | .str s => .object [("type", .text "str"), ("value", .text s)]
  | .sentence doc => .object [("type", .text "sentence"), ("value", doc.toJson)]
  | .list items => .object [("type", .text "list"), ("value", .list (argsToJson items))]

def argsToJson : List ArgDoc → List Value
  | [] => []
  | d :: ds => d.toJson :: argsToJson ds

def LexemDoc.toJson : LexemDoc → Value
  | ⟨space, name, args⟩ =>
      .object [("namespace", .text space), ("name", .text name), ("args", .list (argsToJson args))]

def lexemsToJson : List LexemDoc → List Value
  | [] => []
  | d :: ds => d.toJson :: lexemsToJson ds

def SentenceDoc.toJson : SentenceDoc → Value
  | ⟨lexicon, level, lexems⟩ =>
      .object
        [("lexicon", .text lexicon), ("level", .text level.name), ("lexems", .list (lexemsToJson lexems))]

end

/-- The field that says what an argument is, and the one that holds it. -/
inductive ArgField where
  | type
  | value
deriving DecidableEq

def ArgField.name : ArgField → String
  | type => "type"
  | value => "value"

/-- The next of the two fields of an argument, its part, and the entries after it. -/
def nextArgField : List (Literal × Draft) → Ending →
    Except Problem (Option (ArgField × Draft × List (Literal × Draft)))
  | [], ending => do ending.objectProblem; pure none
  | (key, d) :: rest, ending => do
      match ← key.value with
      | "type" => pure (some (.type, d, rest))
      | "value" => pure (some (.value, d, rest))
      | _ => do d.skip; nextArgField rest ending

/-- Nothing but unknown fields may follow. -/
def noArgField (rest : List (Literal × Draft)) (ending : Ending) : Except Problem Unit := do
  match ← nextArgField rest ending with
  | none => pure ()
  | some (field, _, _) => throw (.duplicate field.name)

/-- The fields of a lexem as far as they have been read. -/
structure LexemFields where
  space : Option String
  name : Option String
  args : Option (List ArgDoc)

/-- The fields of a sentence as far as they have been read. -/
structure SentenceFields where
  lexicon : Option String
  level : Option Level
  lexems : Option (List LexemDoc)

/-- A field that has to be there. -/
def required {α : Type} (field : String) : Option α → Except Problem α
  | some a => .ok a
  | none => .error (.missing field)

/-- An element that has to be there in a record written as a list. -/
def requiredElement {α : Type} (index : Nat) (expected : String) (element : Option α × List Draft) :
    Except Problem (α × List Draft) :=
  match element with
  | (some a, rest) => .ok (a, rest)
  | (none, _) => .error (.wrongLength index expected)

/-- Reads the value of an argument of known type, given how its sentences and lists are read and how many
more lists and objects may be opened. -/
def readArgValue (sentence : Draft → Except Problem SentenceDoc) (list : Draft → Except Problem (List ArgDoc))
    (type : ArgType) (depth : Nat) (d : Draft) : Except Problem ArgDoc :=
  match type with
  | .null => do
      if depth = 0 ∧ d.opens then throw (.flaw .tooDeep)
      d.asUnit "unit variant ArgDoc::Null"
      pure .null
  | .bool => do pure (.bool (← d.asBool))
  | .number => do pure (.number (← d.asNumber))
  | .str => do pure (.str (← d.asText))
  | .sentence => do pure (.sentence (← sentence d))
  | .list => do pure (.list (← list d))

mutual

/-- Reads a list of arguments. Here and below the number says how many more lists and objects may be
opened. -/
def readArgDocs (source : Source) : Nat → Draft → Except Problem (List ArgDoc)
  | 0, .list _ _ => .error (.flaw .tooDeep)
  | depth + 1, .list items ending => readAll (readArgDoc source depth) items ending
  | _, d => d.wrongKind "a sequence"

/-- Reads an argument. If its value comes before its type, the value is set aside until the type is
known. -/
def readArgDoc (source : Source) : Nat → Draft → Except Problem ArgDoc
  | 0, .object _ _ => .error (.flaw .tooDeep)
  | 0, .list _ _ => .error (.flaw .tooDeep)
  | depth + 1, .object entries ending => do
      match ← nextArgField entries ending with
      | none => throw (.missing "type")
      | some (.type, d, rest) =>
          let type ← d.asVariant ArgType.named source depth
          match ← nextArgField rest ending with
          | none => if type = .null then pure .null else throw (.missing "value")
          | some (.type, _, _) => throw (.duplicate "type")
          | some (.value, d, rest) =>
              let doc ← readArgValue (readSentenceDoc source depth) (readArgDocs source depth) type depth d
              noArgField rest ending
              pure doc
      | some (.value, d, rest) =>
          d.buffer depth
          match ← nextArgField rest ending with
          | none => throw (.missing "type")
          | some (.value, _, _) => throw (.duplicate "value")
          | some (.type, t, rest) =>
              let type ← t.asVariant ArgType.named source depth
              let doc ←
                readArgValue (readSentenceDoc .buffered depth) (readArgDocs .buffered depth) type depth d
              noArgField rest ending
              pure doc
  | depth + 1, .list items ending => do
      let expected := "adjacently tagged enum ArgDoc"
      let (type, rest) ← requiredElement 0 expected
        (← nextElement (·.asLeadingVariant ArgType.named source) items ending)
      let (doc, rest) ← requiredElement 1 expected (← nextElement
        (readArgValue (readSentenceDoc source depth) (readArgDocs source depth) type depth) rest ending)
      endElements source 2 rest ending
      pure doc
  | _, d => d.wrongKind "adjacently tagged enum ArgDoc"

def readLexemDoc (source : Source) : Nat → Draft → Except Problem LexemDoc
  | 0, .object _ _ => .error (.flaw .tooDeep)
  | 0, .list _ _ => .error (.flaw .tooDeep)
  | depth + 1, .object entries ending => do
      let step (key : String) (d : Draft) (s : LexemFields) : Except Problem (Option LexemFields) := do
        match key with
        | "namespace" => pure (some { s with space := some (← once key s.space d.asText) })
        | "name" => pure (some { s with name := some (← once key s.name d.asText) })
        | "args" => pure (some { s with args := some (← once key s.args (readArgDocs source depth d)) })
        | _ => pure none
      let s ← readFields step ⟨none, none, none⟩ entries ending
      pure ⟨← required "namespace" s.space, ← required "name" s.name, ← required "args" s.args⟩
  | depth + 1, .list items ending => do
      let expected := "struct LexemDoc with 3 elements"
      let (space, rest) ← requiredElement 0 expected (← nextElement Draft.asText items ending)
      let (name, rest) ← requiredElement 1 expected (← nextElement Draft.asText rest ending)
      let (args, rest) ← requiredElement 2 expected (← nextElement (readArgDocs source depth) rest ending)
      endElements source 3 rest ending
      pure ⟨space, name, args⟩
  | _, d => d.wrongKind "struct LexemDoc"

def readLexemDocs (source : Source) : Nat → Draft → Except Problem (List LexemDoc)
  | 0, .list _ _ => .error (.flaw .tooDeep)
  | depth + 1, .list items ending => readAll (readLexemDoc source depth) items ending
  | _, d => d.wrongKind "a sequence"

def readSentenceDoc (source : Source) : Nat → Draft → Except Problem SentenceDoc
  | 0, .object _ _ => .error (.flaw .tooDeep)
  | 0, .list _ _ => .error (.flaw .tooDeep)
  | depth + 1, .object entries ending => do
      let step (key : String) (d : Draft) (s : SentenceFields) : Except Problem (Option SentenceFields) := do
        match key with
        | "lexicon" => pure (some { s with lexicon := some (← once key s.lexicon d.asText) })
        | "level" =>
            pure (some { s with level := some (← once key s.level (d.asVariant Level.named source depth)) })
        | "lexems" =>
            pure (some { s with lexems := some (← once key s.lexems (readLexemDocs source depth d)) })
        | _ => pure none
      let s ← readFields step ⟨none, none, none⟩ entries ending
      pure ⟨← required "lexicon" s.lexicon, ← required "level" s.level, ← required "lexems" s.lexems⟩
  | depth + 1, .list items ending => do
      let expected := "struct SentenceDoc with 3 elements"
      let (lexicon, rest) ← requiredElement 0 expected (← nextElement Draft.asText items ending)
      let (level, rest) ← requiredElement 1 expected
        (← nextElement (·.asVariant Level.named source depth) rest ending)
      let (lexems, rest) ← requiredElement 2 expected (← nextElement (readLexemDocs source depth) rest ending)
      endElements source 3 rest ending
      pure ⟨lexicon, level, lexems⟩
  | _, d => d.wrongKind "struct SentenceDoc"

end

/-- Reads one argument from its written form. -/
def ArgDoc.ofText (text : String) : Except Problem ArgDoc := decode (readArgDoc .streamed depthLimit) text

/-- Reads a sentence document from its written form. -/
def SentenceDoc.ofText (text : String) : Except Problem SentenceDoc :=
  decode (readSentenceDoc .streamed depthLimit) text

/-- The written form of a sentence on one line. -/
def Sentence.toText (s : Sentence) : Except DocumentError String := do pure (← s.toDoc).toJson.compact

/-- The written form of a sentence with indentation. -/
def Sentence.toPrettyText (s : Sentence) : Except DocumentError String := do
  pure ((← s.toDoc).toJson.pretty 0)

/-- The sentence of a written document, with the lexicons of a registry. -/
def Sentence.ofText {ω : Type} (i : Interpreter ω) (registry : Registry) (text : String) :
    Attempt DocumentError ω Sentence :=
  match SentenceDoc.ofText text with
  | .error p => throw (.error (.malformed p))
  | .ok doc => doc.toSentence i registry

end Parlance
