import Parlance.CommandLine.Options
import Parlance.Engine.Output
import Parlance.Host.Tree
import Parlance.Script.Behaviour
import Parlance.Script.Setup
import Parlance.Sentence.Outline

/-! What the command line does: it renders a document, shows the markup, and, if there is a second document,
brings the output to it and shows the mutations. Files and variables are given, so that the whole of it is
a function. -/

namespace Parlance.CommandLine

/-- What the program sees of the system around it. -/
structure Surroundings where
  /-- The text of a file, or the reason why it cannot be read. -/
  read : String → Except String String
  setting? : String → Option String

/-- The state of a run: the stage, and what has been printed so far. -/
structure Console where
  stage : Stage World
  printed : String

/-- A part of a run. What was printed before an error stays. -/
abbrev Command (α : Type) := Attempt CommandError Console α

/-- How a run ends. -/
structure Result where
  code : Nat
  output : String
  errors : String
deriving DecidableEq

/-- Only the built-in vocabulary is known. -/
def context : Context := Context.html

def behaviour : Behaviour World := Script.behaviour context

namespace Command

variable {α ε : Type}

def fail (e : CommandError) : Command α := throw (.error e)

def print (text : String) : Command Unit := modify fun c => { c with printed := c.printed ++ text }

def printLine (text : String) : Command Unit := print (text ++ "\n")

def ofExcept (cause : ε → CommandError) : Except ε α → Command α
  | .ok a => pure a
  | .error e => fail (cause e)

/-- A pass of the engine. -/
def pass (cause : PassError → CommandError) (action : Pass World α) : Command α := fun c =>
  match action c.stage with
  | .ok a stage => .ok a { c with stage }
  | .error (.error e) stage => .error (.error (cause e)) { c with stage }
  | .error (.trouble t) stage => .error (.trouble t) { c with stage }

/-- An attempt in the world. -/
def attempt (cause : ε → CommandError) (action : Attempt ε World α) : Command α := fun c =>
  match action c.stage.world with
  | .ok a world => .ok a { c with stage := { c.stage with world } }
  | .error (.error e) world => .error (.error (cause e)) { c with stage := { c.stage with world } }
  | .error (.trouble t) world => .error (.trouble t) { c with stage := { c.stage with world } }

def host : Command Host := do pure (← get).stage.host

variable (system : Surroundings)

/-- The configuration: what the file says, and then what the environment says. -/
def config (path : Option String) : Except ConfigError Config := do
  let config ← match path with
    | none => pure Config.default
    | some path =>
        match system.read path with
        | .ok text => Config.ofText text
        | .error reason => throw (.unreadable path reason)
  config.withEnvironment system.setting?

/-- The sentence in a file. -/
def load (path : String) : Command Sentence := do
  let text ← ofExcept (.unreadable path) (system.read path)
  attempt (.document path) (Sentence.ofText behaviour.toInterpreter context.registry text)

/-- Shows a sentence, if that is wanted. -/
def showTree (wanted : Bool) (s : Sentence) : Command Unit := do
  if wanted then
    printLine "=== Sentence ==="
    print (← pass .render (Pass.act (s.outline behaviour.toInterpreter 1)))

/-- Shows the mutations of the host. -/
def showMutations : Command Unit := do
  let mutations := (← host).mutations.toList
  printLine "=== Mutations ==="
  if mutations.isEmpty then printLine "  (none)"
  mutations.forM fun m => printLine ("  " ++ m.describe)

/-- Shows the markup under a heading. -/
def showMarkup (heading : String) : Command Unit := do
  printLine heading
  printLine ((← host).toHtml Host.root)

def run (args : List String) : Command Unit := do
  let options ← ofExcept id (Options.ofArgs args)
  let config ← ofExcept .config (config system options.config)
  let engine := (Engine.new config).addLexicon Html.lexicon
  let first ← load system options.first
  showTree options.tree first
  let rendered ← pass .render (engine.render behaviour Host.root first)
  showMarkup "=== Markup ==="
  match options.next with
  | none => pure ()
  | some path =>
      let next ← load system path
      showTree options.tree next
      modify fun c => { c with stage := { c.stage with host := c.stage.host.clearMutations } }
      let _ ← pass .diff (engine.diff behaviour Host.root next rendered)
      showMutations
      showMarkup "=== Markup after diff ==="

end Command

/-- The text of a trouble, for which the program has no error of its own. -/
def troubleText : Trouble → String
  | .brokenOff message => message
  | .exhausted => "the expansion goes too deep"

/-- Runs the command line. An error is reported on one line, and the exit code says that there was one. -/
def run (system : Surroundings) (args : List String) : Result :=
  match Command.run system args ⟨⟨Host.new, #[], World.new⟩, ""⟩ with
  | .ok _ c => ⟨0, c.printed, ""⟩
  | .error (.error e) c => ⟨1, c.printed, s!"error: {e.message}\n"⟩
  | .error (.trouble t) c => ⟨101, c.printed, troubleText t ++ "\n"⟩

end Parlance.CommandLine
