import Parlance.Json.Decode
import Parlance.Json.Value
import Parlance.Text.Blank

/-! The options of the engine. Every option has a default; a file changes the ones that it names, and after
it the environment changes the ones that it sets. -/

namespace Parlance

open Json

structure Config where
  /-- Markers carry a label that says what they end, and not an empty one. -/
  labelMarkers : Bool
  /-- A diff is skipped when the new sentence is the very one that was rendered last. -/
  reuseIdentical : Bool
  /-- Properties are compared with what the host holds, and not with the previous argument. -/
  liveProperties : Bool
deriving DecidableEq

inductive ConfigError where
  /-- The file cannot be read, for a reason that the system gives. -/
  | unreadable (path reason : String)
  | malformed (problem : Problem)
  /-- A variable of the environment that should be a flag has another value. -/
  | invalidFlag (name value : String)

def ConfigError.message : ConfigError → String
  | unreadable path reason => s!"Cannot read config file {path}: {reason}"
  | malformed problem => "Invalid config: " ++ problem.message
  | invalidFlag name value => s!"Invalid value for {name}: {value}"

namespace Config

def default : Config := ⟨true, true, true⟩

/-- The options as far as they have been read. -/
structure Fields where
  labelMarkers : Option Bool
  reuseIdentical : Option Bool
  liveProperties : Option Bool

/-- The options, with defaults for those that were not read. -/
def ofFields (f : Fields) : Config :=
  ⟨f.labelMarkers.getD default.labelMarkers, f.reuseIdentical.getD default.reuseIdentical,
    f.liveProperties.getD default.liveProperties⟩

/-- Reads the options from an object, or from a list of them in order. -/
def read : Draft → Except Problem Config
  | .object entries ending => do
      let step (key : String) (d : Draft) (f : Fields) : Except Problem (Option Fields) := do
        match key with
        | "label_markers" =>
            pure (some { f with labelMarkers := some (← once key f.labelMarkers d.asBool) })
        | "reuse_identical" =>
            pure (some { f with reuseIdentical := some (← once key f.reuseIdentical d.asBool) })
        | "live_properties" =>
            pure (some { f with liveProperties := some (← once key f.liveProperties d.asBool) })
        | _ => pure none
      pure (ofFields (← readFields step ⟨none, none, none⟩ entries ending))
  | .list items ending => do
      let (first, rest) ← nextElement Draft.asBool items ending
      let (second, rest) ← nextElement Draft.asBool rest ending
      let (third, rest) ← nextElement Draft.asBool rest ending
      endElements .streamed 3 rest ending
      pure (ofFields ⟨first, second, third⟩)
  | d => d.wrongKind "struct EngineConfig"

def ofText (text : String) : Except ConfigError Config :=
  match decode read text with
  | .ok config => .ok config
  | .error p => .error (.malformed p)

/-- The written form. -/
def toText (c : Config) : String :=
  (Value.object [("label_markers", .bool c.labelMarkers), ("reuse_identical", .bool c.reuseIdentical),
    ("live_properties", .bool c.liveProperties)]).compact

/-- Reads a flag, in any case of its letters and between blanks. -/
def flag? (value : String) : Option Bool :=
  let word := String.ofList ((Text.trim value).toList.map Char.toLower)
  if word ∈ ["1", "true", "yes", "on"] then some true
  else if word ∈ ["0", "false", "no", "off"] then some false
  else none

/-- An option after a variable of the environment, if it is set. -/
def overridden (environment : String → Option String) (name : String) (current : Bool) :
    Except ConfigError Bool :=
  match environment name with
  | none => .ok current
  | some value =>
      match flag? value with
      | some b => .ok b
      | none => .error (.invalidFlag name value)

/-- The options after the environment; the first variable with an invalid value is reported. -/
def withEnvironment (c : Config) (environment : String → Option String) : Except ConfigError Config := do
  let labelMarkers ← overridden environment "LEXIDOM_LABEL_MARKERS" c.labelMarkers
  let reuseIdentical ← overridden environment "LEXIDOM_REUSE_IDENTICAL" c.reuseIdentical
  let liveProperties ← overridden environment "LEXIDOM_LIVE_PROPERTIES" c.liveProperties
  pure ⟨labelMarkers, reuseIdentical, liveProperties⟩

end Config

end Parlance
