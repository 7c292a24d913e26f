import Parlance.Sentence.Basic

/-! Scopes: named values in frames. A name is looked up from the innermost frame outwards, and declared in
the innermost one. -/

namespace Parlance

/-- Frames of named values, innermost first. There is always an innermost frame. -/
structure Scope where
  inner : Entries Arg
  outer : List (Entries Arg)

namespace Scope

def new : Scope := ⟨[], []⟩

/-- Declares a name in the innermost frame; outer frames keep theirs. -/
def declare (s : Scope) (name : String) (value : Arg) : Scope := { s with inner := s.inner.put name value }

def get? (s : Scope) (name : String) : Option Arg := (s.inner :: s.outer).findSome? (·.get? name)

def isDeclared (s : Scope) (name : String) : Bool := (s.get? name).isSome

/-- The same scope with a new innermost frame. -/
def child (s : Scope) : Scope := ⟨[], s.inner :: s.outer⟩

/-- The number of frames. -/
def depth (s : Scope) : Nat := s.outer.length + 1

end Scope

end Parlance
