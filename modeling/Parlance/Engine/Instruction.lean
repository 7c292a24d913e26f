import Parlance.Engine.Rendered
import Parlance.Lexicon.Call
import Parlance.Text.Blank

/-! The instructions: the words that the engine carries out itself. A word that the lexicon of its own
namespace defines as a compound is developed even if it has the name of an instruction. This module also
says what each instruction expects of its arguments. -/

namespace Parlance

inductive Instruction where
  | tag
  | text
  | attr
  | prop
  | data
  | cssClass
  | classes
  | style
  | id
  | on
  | ifElse
  | each
  | html
  | onDom
  | execute
  | ref
  | switchUse
  | component
deriving DecidableEq

namespace Instruction

def named : List (String × Instruction) :=
  [("tag", tag), ("text", text), ("attr", attr), ("prop", prop), ("data", data), ("class", cssClass),
    ("classes", classes), ("style", style), ("id", id), ("on", on), ("if", ifElse), ("each", each),
    ("html", html), ("onDom", onDom), ("execute", execute), ("ref", ref), ("switchUse", switchUse),
    ("component", component)]

def ofName? (name : String) : Option Instruction := named.lookup name

end Instruction

/-- Why a pass fails. -/
inductive PassError where
  | vocabulary (error : LexiconError)
  | componentTypeChanged (previous next : String)
  | notMounted (name : String)
  | undeclared (name : String)
  | incongruent (index : Nat) (expected found : String)
  | lengthMismatch (expected found : Nat)
  | notAListener (event : String)
  | invalidArgument (word : String) (index : Nat) (expected found : String)
deriving DecidableEq

def PassError.message : PassError → String
  | vocabulary error => error.message
  | componentTypeChanged previous next =>
      s!"Component type changed from {previous} to {next} while rerendering"
  | notMounted name => s!"Component {name} is not mounted"
  | undeclared name => s!"Undeclared scope name: {name}"
  | incongruent index expected found =>
      s!"Sentences are not congruent at lexem {index}: expected {expected}, found {found}"
  | lengthMismatch expected found => s!"Sentence length changed from {expected} to {found} lexems"
  | notAListener event => s!"Listener for `{event}` is not a function"
  | invalidArgument word index expected found =>
      s!"Argument {index} of `{word}` must be {expected}, found {found}"

/-- The instruction that carries a lexem out; there is none for a compound. -/
def Engine.instruction? (e : Engine) (lexem : Lexem) : Option Instruction :=
  match e.targets.get? lexem.space with
  | some lexicon => if lexicon.develops lexem.name then none else Instruction.ofName? lexem.name
  | none => Instruction.ofName? lexem.name

namespace Lexem

def invalid {α : Type} (lexem : Lexem) (index : Nat) (expected : String) : Except PassError α :=
  .error (.invalidArgument lexem.name index expected (lexem.arg index).kind)

def stringArg (lexem : Lexem) (index : Nat) : Except PassError String :=
  match lexem.arg index with
  | .str s => .ok s
  | _ => lexem.invalid index "a string"

def scalarArg (lexem : Lexem) (index : Nat) : Except PassError Scalar :=
  match (lexem.arg index).toScalar? with
  | some s => .ok s
  | none => lexem.invalid index "a scalar"

/-- The class that `class` puts on its node: its name, unless a flag says no or the name is empty. -/
def presentClass? (lexem : Lexem) : Option String :=
  let name := (lexem.arg 0).toText
  if (lexem.args.length = 1 ∨ (lexem.arg 1).isTruthy) ∧ name ≠ "" then some name else none

/-- The classes that `classes` puts on its node. -/
def splitClasses (lexem : Lexem) : List String := Text.words (lexem.arg 0).toText

/-- What an `on` binds its event to. -/
def listener (lexem : Lexem) : Except PassError Listener :=
  match lexem.arg 1 with
  | .handler handler => .ok ⟨handler, (lexem.arg 2).items⟩
  | _ => .error (.notAListener (lexem.arg 0).toText)

/-- The children of a tag. A single argument is one child, and null is none. -/
def children (lexem : Lexem) : List Arg :=
  match lexem.arg 1 with
  | .list _ items => items
  | .null => []
  | single => [single]

def hookArg (lexem : Lexem) : Except PassError Identity :=
  match lexem.arg 0 with
  | .hook hook => .ok hook
  | _ => lexem.invalid 0 "a host hook"

/-- The arguments that a hook is called with. -/
def hookArgs (lexem : Lexem) : List Arg := lexem.args.drop 1

def callbackArg (lexem : Lexem) : Except PassError Identity :=
  match lexem.arg 0 with
  | .callback callback => .ok callback
  | _ => lexem.invalid 0 "a callback"

def componentArg (lexem : Lexem) : Except PassError Factory :=
  match lexem.arg 0 with
  | .component factory => .ok factory
  | _ => lexem.invalid 0 "a component factory"

/-- Whether a word with a head and a packed list of further arguments has changed. The list is made anew
on every pass, so its items are compared. -/
def packedChanged (lexem old : Lexem) : Bool :=
  if !(lexem.arg 0).same (old.arg 0) then true
  else match lexem.arg 1, old.arg 1 with
    | .list _ items, .list _ oldItems =>
        items.length ≠ oldItems.length || (items.zip oldItems).any fun p => !p.1.same p.2
    | _, _ => lexem.argsChanged old

end Lexem

end Parlance
