import Parlance.Lexicon.Registry
import Parlance.Sentence.Basic

/-! Calling words. What a word does to a sentence depends on its kind and on the level of the sentence:
an atom is appended, an alias runs, and a compound runs on the atomic level but is appended as one lexem on
the first level, to be developed later by the same body. Running a body is left to an interpreter, which
also gives out identities; everything here is the same for every interpreter. -/

namespace Parlance

/-- Why an action broke off, other than by an error that its caller may handle. -/
inductive Trouble where
  /-- A mistake in a body or a function, with its text. -/
  | brokenOff (message : String)
  /-- The expansion went deeper than it was allowed to. -/
  | exhausted
deriving DecidableEq

/-- How an attempt ends without a result. -/
inductive Halt (ε : Type) where
  | error (cause : ε)
  | trouble (trouble : Trouble)

/-- An action on a world. It keeps its effects also when it breaks off. -/
abbrev Act (ω α : Type) := EStateM Trouble ω α

/-- An action that may also end in an error. -/
abbrev Attempt (ε ω α : Type) := EStateM (Halt ε) ω α

namespace Attempt

variable {ε ω α : Type}

def ofAct (action : Act ω α) : Attempt ε ω α := fun world =>
  match action world with
  | .ok a world => .ok a world
  | .error t world => .error (.trouble t) world

def ofExcept : Except ε α → Attempt ε ω α
  | .ok a => pure a
  | .error e => throw (.error e)

/-- The same attempt with its errors put into other words. -/
def mapError {ε' : Type} (f : ε → ε') (attempt : Attempt ε ω α) : Attempt ε' ω α := fun world =>
  match attempt world with
  | .ok a world => .ok a world
  | .error (.error e) world => .error (.error (f e)) world
  | .error (.trouble t) world => .error (.trouble t) world

/-- The same attempt inside a function that cannot hand an error on: the error breaks it off. -/
def orBreakOff (message : ε → String) (attempt : Attempt ε ω α) : Act ω α := fun world =>
  match attempt world with
  | .ok a world => .ok a world
  | .error (.error e) world => .error (.brokenOff (message e)) world
  | .error (.trouble t) world => .error t world

/-- The outcome of an attempt as a value. -/
def result (attempt : Attempt ε ω α) : Act ω (Except ε α) := fun world =>
  match attempt world with
  | .ok a world => .ok (.ok a) world
  | .error (.error e) world => .ok (.error e) world
  | .error (.trouble t) world => .error t world

end Attempt

/-- How the bodies of words are run in a world, and how new identities are drawn. -/
structure Interpreter (ω : Type) where
  fresh : Act ω Identity
  run : Body → Initializer → Sentence → List Arg → Act ω Sentence

variable {ω : Type} (i : Interpreter ω)

/-- What the word defined by `owner` does to a sentence. -/
def Word.apply (word : Word) (owner : Lexicon) (s : Sentence) (name : String) (args : List Arg) :
    Act ω Sentence :=
  match word with
  | .atom => pure (s.append owner.name name args)
  | .compound body =>
      match s.level with
      | .atomic => i.run body ⟨owner, .atomic⟩ s args
      | .firstLevel => pure (s.append owner.name name args)
  | .alias body => i.run body ⟨owner, s.level⟩ s args

namespace Sentence

/-- Calls a word of the sentence's lexicon. -/
def tryCall (s : Sentence) (name : String) (args : List Arg) : Attempt LexiconError ω Sentence :=
  match s.lexicon.resolve name with
  | some (owner, word) => .ofAct (word.apply i owner s name args)
  | none => throw (.error (.unknownWord s.lexicon.name name))

/-- The two parts of a reference `lexicon:word`, divided at the first colon. -/
def splitReference (reference : String) : Option (String × String) :=
  let cs := reference.toList
  let lexicon := cs.takeWhile (· ≠ ':')
  match cs.drop lexicon.length with
  | [] => none
  | _ :: word => some (String.ofList lexicon, String.ofList word)

/-- Calls a word of another lexicon on this sentence. -/
def useReference (registry : Registry) (s : Sentence) (reference : String) (args : List Arg) :
    Attempt LexiconError ω Sentence :=
  match splitReference reference with
  | none => throw (.error (.malformedReference reference))
  | some (lexiconName, name) =>
      match registry.get? lexiconName with
      | none => throw (.error (.unknownLexicon lexiconName))
      | some lexicon =>
          match lexicon.resolve name with
          | some (owner, word) => .ofAct (word.apply i owner s name args)
          | none => throw (.error (.unknownWord lexiconName name))

end Sentence

namespace Lexicon

/-- The body of a compound, run on the empty sentence of the lexicon on a level. -/
def expand (lexicon : Lexicon) (level : Level) (lexem : Lexem) : Attempt LexiconError ω Sentence :=
  match lexicon.resolve lexem.name with
  | some (owner, .compound body) =>
      .ofAct (i.run body ⟨owner, level⟩ (Sentence.empty lexicon level) lexem.args)
  | _ => throw (.error (.missingDevelopment lexicon.name lexem.name))

/-- One step of development: the words that a compound stands for. -/
def develop (lexicon : Lexicon) (lexem : Lexem) : Attempt LexiconError ω Sentence :=
  lexicon.expand i .firstLevel lexem

/-- The atoms that a compound stands for. -/
def developToAtoms (lexicon : Lexicon) (lexem : Lexem) : Attempt LexiconError ω Sentence :=
  lexicon.expand i .atomic lexem

/-- Whether a namespace belongs to the chain of a lexicon. -/
def owns (lexicon : Lexicon) (space : String) : Bool := lexicon.chain.any (·.name = space)

mutual

/-- Says the lexems of a sentence again with the words of a lexicon: compounds of its chain are applied
anew, and everything else is copied. Sentences in arguments are translated first. -/
def translate (lexicon : Lexicon) (level : Level) : Sentence → Act ω Sentence
  | ⟨_, _, lexems⟩ => lexicon.translateLexems level (Sentence.empty lexicon level) lexems

def translateLexems (lexicon : Lexicon) (level : Level) (out : Sentence) : List Lexem → Act ω Sentence
  | [] => pure out
  | ⟨space, name, args⟩ :: lexems => do
      let args ← lexicon.translateArgs level args
      let out ← match lexicon.resolve name with
        | some (owner, .compound body) =>
            if lexicon.owns space then (Word.compound body).apply i owner out name args
            else pure (out.append space name args)
        | _ => pure (out.append space name args)
      lexicon.translateLexems level out lexems

def translateArgs (lexicon : Lexicon) (level : Level) : List Arg → Act ω (List Arg)
  | [] => pure []
  | a :: as => do
      let a ← lexicon.translateArg level a
      let as ← lexicon.translateArgs level as
      pure (a :: as)

def translateArg (lexicon : Lexicon) (level : Level) : Arg → Act ω Arg
  | .sentence _ s => do
      let s ← lexicon.translate level s
      pure (.sentence (← i.fresh) s)
  | .list _ items => do
      let items ← lexicon.translateArgs level items
      pure (.list (← i.fresh) items)
  | other => pure other

end

end Lexicon

end Parlance
