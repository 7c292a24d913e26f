import Parlance.Number.Basic
import Parlance.Sentence.Level

/-! Scripts: the bodies of words, views, render functions and handlers, written as data. A script is a
list of calls that extend a sentence one after the other. The arguments of the calls are expressions over
the arguments of the word that is run and over named values. -/

namespace Parlance

/-- What a shared record holds. -/
inductive Record where
  | text (value : String)
  | number (value : Number)
deriving DecidableEq

mutual

/-- An expression for an argument. Except for `name` and `arg`, every evaluation of an expression for a
value with an identity makes a new one. -/
inductive Expr where
  | null
  | bool (value : Bool)
  | number (value : Number)
  | str (value : String)
  /-- A sentence of its own; a lexicon or level given here replaces the surrounding one inside. -/
  | sentence (calls : List Call) (lexicon : Option String) (level : Option Level)
  /-- A sentence read from a document. -/
  | document (text : String)
  | list (items : List Expr)
  | record (content : Record)
  /-- The text in a record of text. -/
  | field (record : Expr)
  /-- A new record: the text of a record with a suffix. -/
  | edit (record suffix : Expr)
  | name (name : String)
  | arg (index : Nat)
  /-- In a list of arguments: all arguments from an index on. -/
  | rest (start : Nat)
  /-- In a list of arguments: the value, left out when it is null. -/
  | given (value : Expr)
  | render (calls : List Call) (label : Option String)
  | handler (label : String) (update : Option Expr)
  | callback (label : String)
  | hook (label : String) (bare : Bool)
  /-- A factory of components of a type, which may report on their life, with the name of their view. -/
  | component (typeName : String) (reports : Bool) (definition : String)
  | join (parts : List Expr)
  | sum (parts : List Expr)
  | push (list item : Expr)
  | drop (list index : Expr)
  | nth (list index : Expr)
  | length (list : Expr)
  | truthy (value : Expr)
  | negation (value : Expr)
  | same (left right : Expr)
  /-- One of two values; both are evaluated. -/
  | choose (condition yes no : Expr)

/-- A step that extends a sentence. -/
inductive Call where
  | word (name : String) (args : List Expr)
  /-- A call by its typed method, which shapes the arguments. -/
  | method (name : String) (args : List Expr)
  /-- A lexem that no lexicon is asked about. -/
  | append (space name : String) (args : List Expr)
  | branch (condition : Expr) (yes : List Call) (no : Option (List Call))
  /-- The calls once for every item of a list, with `item` and `index`. -/
  | repeated (items : Expr) (body : List Call)
  | splice (sentence : Expr)
  /-- A word of another lexicon, by a reference `lexicon:word`. -/
  | reference (reference : String) (args : List Expr)
  /-- Goes on with the vocabulary of another lexicon. -/
  | continueWith (lexicon : String)

end

/-- The body of a compound or an alias. A body with a label is announced under it when it runs. -/
structure Body where
  label : Option String
  calls : List Call

end Parlance
