import Parlance.Document.Basic
import Parlance.Engine.Config
import Parlance.Engine.Instruction

/-! The arguments of the command line, and the errors that it reports. -/

namespace Parlance.CommandLine

/-- The line that says how the program is called. -/
def usage : String := "Usage: lexidom <sentence.json> [next.json] [--tree] [--config <file>]"

structure Options where
  first : String
  next : Option String
  tree : Bool
  config : Option String
deriving DecidableEq

inductive CommandError where
  | noDocument
  | tooManyDocuments
  | configWithoutFile
  | unknownOption (name : String)
  | config (error : ConfigError)
  | unreadable (path reason : String)
  | document (path : String) (error : DocumentError)
  | render (error : PassError)
  | diff (error : PassError)

/-- The texts of an error in the configuration, from the outermost inwards. -/
def configCauses (error : ConfigError) : List String :=
  error.message :: match error with
    | .unreadable _ reason => [reason]
    | .malformed problem => [problem.message]
    | .invalidFlag _ _ => []

/-- The texts of an error in a document, from the outermost inwards. -/
def documentCauses (error : DocumentError) : List String :=
  error.message :: match error with
    | .malformed problem => [problem.message]
    | _ => []

/-- The texts of an error, from the outermost inwards. -/
def CommandError.causes : CommandError → List String
  | noDocument => [usage]
  | tooManyDocuments => ["Too many documents\n" ++ usage]
  | configWithoutFile => ["--config needs a file\n" ++ usage]
  | unknownOption name => [s!"Unknown option {name}\n" ++ usage]
  | config error => configCauses error
  | unreadable path reason => [s!"Error reading file {path}", reason]
  | document path error => s!"Invalid sentence document {path}" :: documentCauses error
  | render error => ["Render failed", error.message]
  | diff error => ["Diff failed", error.message]

def CommandError.message (e : CommandError) : String := ": ".intercalate e.causes

/-- The arguments read so far. -/
structure Scan where
  documents : List String
  tree : Bool
  config : Option String

/-- Reads the arguments from left to right; the last file for the configuration counts. -/
def scan (s : Scan) : List String → Except CommandError Scan
  | [] => .ok s
  | "--tree" :: args => scan { s with tree := true } args
  | ["--config"] => .error .configWithoutFile
  | "--config" :: path :: args => scan { s with config := some path } args
  | arg :: args =>
      if "--".isPrefixOf arg then .error (.unknownOption arg)
      else scan { s with documents := s.documents ++ [arg] } args

/-- The options that arguments stand for. -/
def Options.ofArgs (args : List String) : Except CommandError Options := do
  let s ← scan ⟨[], false, none⟩ args
  match s.documents with
  | [] => throw .noDocument
  | [first] => pure ⟨first, none, s.tree, s.config⟩
  | [first, next] => pure ⟨first, some next, s.tree, s.config⟩
  | _ => throw .tooManyDocuments

end Parlance.CommandLine
