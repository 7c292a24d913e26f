import Parlance.Lexicon.Basic

/-! Registries: lexicons by name. -/

namespace Parlance

/-- Lexicons under their names. -/
structure Registry where
  lexicons : Entries Lexicon

namespace Registry

def empty : Registry := ⟨[]⟩

/-- Registers a lexicon; an earlier one of its name is replaced. -/
def register (r : Registry) (lexicon : Lexicon) : Registry := ⟨r.lexicons.put lexicon.name lexicon⟩

/-- Registers a lexicon and its ancestors, as far as their names are still free. -/
def registerWithAncestors (r : Registry) (lexicon : Lexicon) : Registry :=
  lexicon.chain.foldl (fun r l => if (r.lexicons.get? l.name).isSome then r else r.register l) r

def get? (r : Registry) (name : String) : Option Lexicon := r.lexicons.get? name

def get (r : Registry) (name : String) : Except LexiconError Lexicon :=
  match r.get? name with
  | some lexicon => .ok lexicon
  | none => .error (.unknownLexicon name)

def contains (r : Registry) (name : String) : Bool := (r.get? name).isSome

/-- The registered names in order. -/
def names (r : Registry) : List String := r.lexicons.names

end Registry

end Parlance
