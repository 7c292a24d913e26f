import Parlance.Pragmatics.Basic
import Parlance.Script.Behaviour

/-! Carrying out sentences on a list of texts, step by step, by handlers that are scripts. The steps share a
stack of scopes. -/

namespace Parlance

/-- One action of a handler. Its expressions refer to the arguments of the lexem. -/
inductive Action where
  /-- Puts a text at the end of the list. -/
  | emit (text : Expr)
  /-- Puts the text of a named value at the end of the list. -/
  | load (name : Expr)
  | declare (name value : Expr)
  /-- Fails unless the argument at a place is a text. -/
  | needText (index : Nat)

abbrev Notes := List String

namespace Action

variable (ctx : Context) (h : Initializer)

/-- Evaluates an expression over the arguments of a lexem. -/
def eval (args : List Arg) (e : Expr) : Deed World Notes Arg :=
  Deed.act (Script.closed (Script.eval ctx (Script.interpreter ctx) ⟨h, [], args⟩ e))

def perform (word : String) (args : List Arg) : Action → Deed World Notes Unit
  | .emit text => do
      let text ← eval ctx h args text
      Deed.edit (· ++ [text.toText])
  | .load name => do
      let name ← eval ctx h args name
      let value ← Deed.load name.toText
      Deed.edit (· ++ [value.toText])
  | .declare name value => do
      let name ← eval ctx h args name
      let value ← eval ctx h args value
      Deed.declare name.toText value
  | .needText index =>
      match argAt args index with
      | .str _ => pure ()
      | _ => Deed.fail (.invalidArgument word index "a string")

end Action

/-- What is carried out, and how. -/
structure PragmaticsPlan where
  /-- The keys of lexicons that are carried out with their ancestors. -/
  targets : List String
  spaces : List String
  handlers : List (String × List Action)

inductive PragmaticsStep where
  | declare (name : String) (value : Expr)
  | load (name : String)
  | declared (name : String)
  | output (view : Expr)
  /-- Calls words one by one in a copy of the scope, each carried out at once. -/
  | facade (calls : List (String × List Expr))
  | child
  | pop

/-- Why a step fails. -/
inductive PragmaticsFailure where
  | script (error : ScriptError)
  | deed (error : PragmaticsError)

inductive PragmaticsReply where
  | nothing
  | text (value : String)
  | flag (value : Bool)
  /-- How each call ended, and the number of frames of the scope afterwards. -/
  | facade (results : List (Option PragmaticsFailure)) (depth : Nat)

structure PragmaticsReport where
  reply : Except PragmaticsFailure PragmaticsReply
  output : List String
  depth : Nat
  journal : List String

/-- The state between two steps; the current scope comes first. -/
structure PragmaticsState where
  scope : Scope
  below : List Scope
  world : World

namespace PragmaticsPlan

variable (ctx : Context) (h : Initializer)

/-- The table that a plan describes. -/
def table (plan : PragmaticsPlan) : Except ScriptError (Pragmatics World Notes) := do
  let lexicons ← plan.targets.mapM ctx.lexicon
  let p := lexicons.foldl Pragmatics.addLexicon Pragmatics.new
  let p := plan.spaces.foldl Pragmatics.addNamespace p
  pure (plan.handlers.foldl (fun p entry =>
    p.handle entry.1 fun args => entry.2.forM (Action.perform ctx h entry.1 args)) p)

end PragmaticsPlan

namespace PragmaticsStep

variable (ctx : Context) (h : Initializer) (p : Pragmatics World Notes)

/-- A part of a step, which may also fail by a mistake in the script of the step. -/
abbrev Part (α : Type) := Attempt PragmaticsFailure (Scene World Notes) α

def deed {α : Type} (action : Deed World Notes α) : Part α := action.mapError .deed

def script {α : Type} (action : Script.Eval α) : Part α := fun scene =>
  match action scene.world with
  | .ok a world => .ok a { scene with world }
  | .error (.error e) world => .error (.error (.script e)) { scene with world }
  | .error (.trouble t) world => .error (.trouble t) { scene with world }

/-- One call of a facade, and how it ends. -/
def facadeCall (c : String × List Expr) : Part (Option PragmaticsFailure) := fun scene =>
  let call : Part Unit := do
    let args ← script (Script.evalArgs ctx (Script.interpreter ctx) (.new h) c.2)
    deed (p.say (Script.callRender ctx) (Script.interpreter ctx) h.lexicon c.1 args)
  match call scene with
  | .ok _ scene => .ok none scene
  | .error (.error e) scene => .ok (some e) scene
  | .error (.trouble t) scene => .error (.trouble t) scene

def perform : PragmaticsStep → Part PragmaticsReply
  | .declare name value => do
      let value ← script (Script.eval ctx (Script.interpreter ctx) (.new h) value)
      deed (Deed.declare name value)
      pure .nothing
  | .load name => do pure (.text (← deed (Deed.load name)).toText)
  | .declared name => do pure (.flag ((← get).scope.isDeclared name))
  | .output view => do
      let s ← script (Script.evalSentence ctx (Script.interpreter ctx) (.new h) view)
      deed (p.run (Script.callRender ctx) s)
      pure .nothing
  | .facade calls => do
      let scope := (← get).scope
      let results ← calls.mapM (facadeCall ctx h p)
      let depth := (← get).scope.depth
      modify fun scene => { scene with scope }
      pure (.facade results depth)
  | .child => pure .nothing
  | .pop => pure .nothing

/-- The scopes after a step. The last scope cannot be popped. -/
def scopes (scope : Scope) (below : List Scope) : PragmaticsStep → Scope × List Scope
  | child => (scope.child, scope :: below)
  | pop =>
      match below with
      | [] => (scope, [])
      | next :: rest => (next, rest)
  | _ => (scope, below)

/-- Performs steps, and stops at the first that breaks off. -/
def run (state : PragmaticsState) : List PragmaticsStep → Except Trouble (List PragmaticsReport)
  | [] => .ok []
  | step :: steps => do
      let (reply, scene) ← match step.perform ctx h p ⟨[], state.scope, state.world⟩ with
        | .ok reply scene => pure (.ok reply, scene)
        | .error (.error e) scene => pure (.error e, scene)
        | .error (.trouble t) _ => throw t
      let (scope, below) := step.scopes scene.scope state.below
      let report : PragmaticsReport := ⟨reply, scene.subject, scope.depth, scene.world.journal.toList⟩
      pure (report :: (← run ⟨scope, below, scene.world.clearJournal⟩ steps))

end PragmaticsStep

end Parlance
