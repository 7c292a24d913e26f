import Parlance.Text.Sorted
import Parlance.Text.Quoted
import Parlance.Script.Terms

/-! Lexicons: named vocabularies. A word is an atom, which is appended to a sentence as it stands, a
compound, which is built from other words, or an alias, which appends atoms directly on every level. A
lexicon may have a parent, whose words it inherits and may define anew; a word is looked up along the
chain of parents, and the first definition found is the one that holds. -/

namespace Parlance

inductive Word where
  | atom
  | compound (body : Body)
  | alias (body : Body)

inductive WordKind where
  | atom
  | compound
  | alias
deriving DecidableEq

def Word.kind : Word → WordKind
  | .atom => .atom
  | .compound _ => .compound
  | .alias _ => .alias

def WordKind.name : WordKind → String
  | .atom => "Atom"
  | .compound => "Compound"
  | .alias => "Alias"

structure Lexicon where
  name : String
  parent : Option Lexicon
  words : Entries Word

namespace Lexicon

/-- A lexicon without words of its own. -/
def new (name : String) (parent : Option Lexicon) : Lexicon := ⟨name, parent, []⟩

/-- Defines a word; an earlier definition in the same lexicon is replaced. -/
def define (lexicon : Lexicon) (name : String) (word : Word) : Lexicon :=
  { lexicon with words := lexicon.words.put name word }

def addAtoms (lexicon : Lexicon) (names : List String) : Lexicon :=
  names.foldl (fun l name => l.define name .atom) lexicon

def addCompounds (lexicon : Lexicon) (bodies : List (String × Body)) : Lexicon :=
  bodies.foldl (fun l b => l.define b.1 (.compound b.2)) lexicon

def addAliases (lexicon : Lexicon) (bodies : List (String × Body)) : Lexicon :=
  bodies.foldl (fun l b => l.define b.1 (.alias b.2)) lexicon

/-- A lexicon followed by its ancestors. -/
def chain : Lexicon → List Lexicon
  | ⟨name, none, words⟩ => [⟨name, none, words⟩]
  | ⟨name, some parent, words⟩ => ⟨name, some parent, words⟩ :: parent.chain

/-- The definition of a word, and the lexicon that holds it. -/
def resolve (lexicon : Lexicon) (name : String) : Option (Lexicon × Word) :=
  lexicon.chain.findSome? fun owner => (owner.words.get? name).map fun word => (owner, word)

def kindOf (lexicon : Lexicon) (name : String) : Option WordKind := (lexicon.resolve name).map (·.2.kind)

def hasWord (lexicon : Lexicon) (name : String) : Bool := (lexicon.resolve name).isSome

/-- Whether a word can be developed. -/
def develops (lexicon : Lexicon) (name : String) : Bool := lexicon.kindOf name = some .compound

/-- The names of the words that a lexicon defines itself, in order. -/
def ownWords (lexicon : Lexicon) : List String := lexicon.words.names

/-- One line about a lexicon: its name, its parent's, and its own words. -/
def describe (lexicon : Lexicon) : String :=
  let parent := match lexicon.parent with
    | none => "None"
    | some p => s!"Some({Text.quoted p.name})"
  let words := ", ".intercalate (lexicon.ownWords.map Text.quoted)
  s!"Lexicon \x7b name: {Text.quoted lexicon.name}, parent: {parent}, words: [{words}] \x7d"

end Lexicon

/-- A mistake in a vocabulary or in the use of one. -/
inductive LexiconError where
  | unknownLexicon (name : String)
  | unknownWord (lexicon word : String)
  | missingDevelopment (lexicon word : String)
  | malformedReference (reference : String)
deriving DecidableEq

def LexiconError.message : LexiconError → String
  | unknownLexicon name => s!"Lexicon not found: {name}"
  | unknownWord lexicon word => s!"Word `{word}` is not defined in lexicon {lexicon}"
  | missingDevelopment lexicon word => s!"No second-level development for `{word}` in lexicon {lexicon}"
  | malformedReference reference => s!"Malformed reference `{reference}`, expected `lexicon:method`"

end Parlance
