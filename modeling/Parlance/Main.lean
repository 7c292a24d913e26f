import Parlance.CommandLine.Run

/-! The program: it reads the files and variables that the command line may ask for, and prints what comes
of it. -/

namespace Parlance.CommandLine

/-- The files that options name. -/
def Options.files (o : Options) : List String := o.first :: o.next.toList ++ o.config.toList

/-- The variables that the configuration may be taken from. -/
def settingNames : List String :=
  ["LEXIDOM_LABEL_MARKERS", "LEXIDOM_REUSE_IDENTICAL", "LEXIDOM_LIVE_PROPERTIES"]

def missing : String := "No such file or directory (os error 2)"

/-- Reads a file, or says why it cannot be read. -/
def readFile (path : String) : IO (Except String String) := do
  try
    match String.fromUTF8? (← IO.FS.readBinFile path) with
    | some text => pure (.ok text)
    | none => pure (.error "stream did not contain valid UTF-8")
  catch
    | .noFileOrDirectory _ _ _ => pure (.error missing)
    | .permissionDenied _ _ _ => pure (.error "Permission denied (os error 13)")
    | e => pure (.error (toString e))

end Parlance.CommandLine

open Parlance.CommandLine in
def main (args : List String) : IO UInt32 := do
  let paths := match Options.ofArgs args with
    | .ok options => options.files
    | .error _ => []
  let files ← paths.mapM fun path => do pure (path, ← readFile path)
  let settings ← settingNames.mapM fun name => do pure (name, ← IO.getEnv name)
  let system : Surroundings :=
    ⟨fun path => (files.lookup path).getD (.error missing), fun name => (settings.lookup name).join⟩
  let result := run system args
  IO.print result.output
  IO.eprint result.errors
  return result.code.toUInt32
