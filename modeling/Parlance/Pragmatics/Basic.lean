import Parlance.Lexicon.Call
import Parlance.Pragmatics.Scope

/-! Pragmatics: carrying a sentence out on a subject by a table of handlers, one for each word. Words of
foreign namespaces and words without a handler are passed over; only `if` and `each` have a meaning of
their own where the table has none for them. The subject may be anything, and so may the world in which
render functions are called. -/

namespace Parlance

inductive PragmaticsError where
  | undeclared (name : String)
  | vocabulary (error : LexiconError)
  | invalidArgument (word : String) (index : Nat) (expected : String)
deriving DecidableEq

def PragmaticsError.message : PragmaticsError → String
  | undeclared name => s!"Undeclared scope name: {name}"
  | vocabulary error => error.message
  | invalidArgument word index expected => s!"Argument {index} of `{word}` must be {expected}"

/-- What carrying out a sentence may change. -/
structure Scene (ω σ : Type) where
  subject : σ
  scope : Scope
  world : ω

/-- A part of carrying out a sentence. It keeps its effects also when it fails. -/
abbrev Deed (ω σ α : Type) := Attempt PragmaticsError (Scene ω σ) α

namespace Deed

variable {ω σ α : Type}

def fail (e : PragmaticsError) : Deed ω σ α := throw (.error e)

/-- An action in the world. -/
def act (action : Act ω α) : Deed ω σ α := fun scene =>
  match action scene.world with
  | .ok a world => .ok a { scene with world }
  | .error t world => .error (.trouble t) { scene with world }

/-- An attempt in the world to find words. -/
def attempt (action : Attempt LexiconError ω α) : Deed ω σ α := fun scene =>
  match action scene.world with
  | .ok a world => .ok a { scene with world }
  | .error (.error e) world => .error (.error (.vocabulary e)) { scene with world }
  | .error (.trouble t) world => .error (.trouble t) { scene with world }

/-- The value of a name in the scope. -/
def load (name : String) : Deed ω σ Arg := do
  match (← get).scope.get? name with
  | some value => pure value
  | none => fail (.undeclared name)

def declare (name : String) (value : Arg) : Deed ω σ Unit :=
  modify fun scene => { scene with scope := scene.scope.declare name value }

def edit (f : σ → σ) : Deed ω σ Unit := modify fun scene => { scene with subject := f scene.subject }

end Deed

structure Pragmatics (ω σ : Type) where
  /-- The namespaces that are carried out; if there are none, all are. -/
  targets : Entries Unit
  handlers : Entries (List Arg → Deed ω σ Unit)

namespace Pragmatics

variable {ω σ : Type}

def new : Pragmatics ω σ := ⟨[], []⟩

def addNamespace (p : Pragmatics ω σ) (space : String) : Pragmatics ω σ :=
  { p with targets := p.targets.put space () }

/-- Carries out a lexicon and every lexicon that it inherits from. -/
def addLexicon (p : Pragmatics ω σ) (lexicon : Lexicon) : Pragmatics ω σ :=
  lexicon.chain.foldl (fun p l => p.addNamespace l.name) p

/-- Sets the handler of a word. -/
def handle (p : Pragmatics ω σ) (word : String) (handler : List Arg → Deed ω σ Unit) : Pragmatics ω σ :=
  { p with handlers := p.handlers.put word handler }

def accepts (p : Pragmatics ω σ) (space : String) : Bool :=
  p.targets.isEmpty || (p.targets.get? space).isSome

variable (render : Identity → Arg → Nat → Act ω Sentence) (output : Sentence → Deed ω σ Unit)

/-- Carries out the branch that a condition chooses. -/
def branch (args : List Arg) : Deed ω σ Unit := do
  let condition := argAt args 0
  let index := if condition.isTruthy then 1 else 2
  match argAt args index with
  | .null => pure ()
  | .sentence _ s => output s
  | .render f => do output (← Deed.act (render f condition 0))
  | _ => Deed.fail (.invalidArgument "if" index "a sentence or a render function")

/-- Carries out the sentence for every item of a list, counting from an index, each before the next is
made. -/
def repeated (f : Identity) (index : Nat) : List Arg → Deed ω σ Unit
  | [] => pure ()
  | item :: items => do
      output (← Deed.act (render f item index))
      repeated f (index + 1) items

def each (args : List Arg) : Deed ω σ Unit :=
  match argAt args 1 with
  | .render f => repeated render output f 0 (argAt args 0).items
  | _ => Deed.fail (.invalidArgument "each" 1 "a render function")

/-- Carries out one lexem. -/
def perform (p : Pragmatics ω σ) (lexem : Lexem) : Deed ω σ Unit :=
  if p.accepts lexem.space then
    match p.handlers.get? lexem.name with
    | some handler => handler lexem.args
    | none =>
        if lexem.name = "if" then branch render output lexem.args
        else if lexem.name = "each" then each render output lexem.args
        else pure ()
  else pure ()

/-- Carries out a sentence, lexem by lexem, going no deeper than so many levels. -/
def outputWithin (p : Pragmatics ω σ) : Nat → Sentence → Deed ω σ Unit
  | 0, _ => throw (.trouble .exhausted)
  | depth + 1, s => s.lexems.forM (p.perform render (p.outputWithin depth))

/-- How deep sentences may be nested. -/
def depthLimit : Nat := 10000

/-- Carries out a sentence. -/
def run (p : Pragmatics ω σ) (s : Sentence) : Deed ω σ Unit := p.outputWithin render depthLimit s

/-- Calls a word on the atomic level and carries out at once what comes of it. -/
def say (p : Pragmatics ω σ) (i : Interpreter ω) (lexicon : Lexicon) (word : String) (args : List Arg) :
    Deed ω σ Unit := do
  p.run render (← Deed.attempt ((Sentence.empty lexicon .atomic).tryCall i word args))

end Pragmatics

end Parlance
