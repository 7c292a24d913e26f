import Parlance.Host.Query
import Parlance.Schedule.App
import Parlance.Script.Behaviour

/-! Sessions: an engine, a host and a world of scripts, with outputs in named slots, components that are held
by name, and at most one app. A session is what a sequence of steps acts on. -/

namespace Parlance

/-- Why a step fails. -/
inductive SessionError where
  | pass (error : PassError)
  | script (error : ScriptError)
  | noNode
  | noComponent
  | nothingRendered
deriving DecidableEq

def SessionError.message : SessionError → String
  | pass error => error.message
  | script error => error.message
  | noNode => "no such node"
  | noComponent => "no such component"
  | nothingRendered => "nothing rendered"

/-- The app of a session, with its number and the expression for its view. -/
structure Display where
  number : Nat
  app : App (Snapshot Arg)
  view : Expr

structure Session where
  engine : Engine
  stage : Stage World
  slots : Entries Rendered
  held : Entries InstanceId
  display : Option Display
  /-- How many apps there have been. -/
  displays : Nat

/-- What the app of a session shows of itself. -/
structure DisplayState where
  pending : Bool
  superseded : Nat
  /-- The length of what is rendered. -/
  rendered : Option Nat
deriving DecidableEq

def Display.state (d : Display) : DisplayState :=
  ⟨d.app.frames.isPending, d.app.frames.superseded, d.app.rendered.map Rendered.length⟩

/-- A part of a step. It keeps its effects also when it fails. -/
abbrev Play (α : Type) := Attempt SessionError Session α

namespace Session

def new (engine : Engine) (world : World) : Session := ⟨engine, ⟨Host.new, #[], world⟩, [], [], none, 0⟩

def host (s : Session) : Host := s.stage.host

def world (s : Session) : World := s.stage.world

def instance? (s : Session) (id : InstanceId) : Option Instance := s.stage.instances[id.index]?

def editHost (f : Host → Host) (s : Session) : Session :=
  { s with stage := { s.stage with host := f s.stage.host } }

def editWorld (f : World → World) (s : Session) : Session :=
  { s with stage := { s.stage with world := f s.stage.world } }

end Session

namespace Play

variable {α : Type}

def fail (e : SessionError) : Play α := throw (.error e)

def breakOff (message : String) : Play α := throw (.trouble (.brokenOff message))

/-- A pass of the engine. -/
def pass (action : Pass World α) : Play α := fun s =>
  match action s.stage with
  | .ok a stage => .ok a { s with stage }
  | .error (.error e) stage => .error (.error (.pass e)) { s with stage }
  | .error (.trouble t) stage => .error (.trouble t) { s with stage }

/-- An evaluation of a script. -/
def script (action : Script.Eval α) : Play α := fun s =>
  match action s.stage.world with
  | .ok a world => .ok a (s.editWorld fun _ => world)
  | .error (.error e) world => .error (.error (.script e)) (s.editWorld fun _ => world)
  | .error (.trouble t) world => .error (.trouble t) (s.editWorld fun _ => world)

/-- An action in the world. -/
def act (action : Act World α) : Play α := pass (Pass.act action)

def edit (f : Session → Session) : Play Unit := modify f

/-- A change of the host with a result. -/
def make (f : Host → α × Host) : Play α := pass (Pass.make f)

/-- An action of the app on its stage. -/
def onDisplay (d : Display) (action : EStateM (Halt PassError) (Screen World (Snapshot Arg)) α) :
    Play α := fun s =>
  let put (screen : Screen World (Snapshot Arg)) : Session :=
    { s with stage := screen.stage, display := some { d with app := screen.app } }
  match action ⟨d.app, s.stage⟩ with
  | .ok a screen => .ok a (put screen)
  | .error (.error e) screen => .error (.error (.pass e)) (put screen)
  | .error (.trouble t) screen => .error (.trouble t) (put screen)

/-- Hands the snapshots in the inbox to the app, if they are for it, and empties the inbox. -/
def deliver : Play Unit := edit fun s =>
  let take (d : Display) : Display :=
    let due := s.world.inbox.filter (·.1 = d.number)
    { d with app := due.foldl (fun app entry => app.schedule entry.2) d.app }
  { s with display := s.display.map take }.editWorld fun world => { world with inbox := [] }

/-- What the app shows of itself, if there is one. -/
def displayState : Play (Option DisplayState) := do pure ((← get).display.map Display.state)

/-- Only nodes that a host has given out can be looked at. -/
def knownTo (host : Host) (n : NodeId) : Play Unit :=
  unless host.has n do
    breakOff s!"index out of bounds: the len is {host.nodes.size} but the index is {n.index}"

def known (n : NodeId) : Play Unit := do knownTo (← get).host n

end Play

/-- How a step names a node. -/
inductive NodeRef where
  | root
  | number (index : Nat)
  | id (name : String)
  /-- The node at a place among those with a tag. -/
  | tag (name : String) (place : Nat)
  /-- The node at a place among those with a class. -/
  | cssClass (name : String) (place : Nat)

def NodeRef.resolve? (h : Host) : NodeRef → Option NodeId
  | .root => some Host.root
  | .number index => some ⟨index⟩
  | .id name => h.findById name
  | .tag name place => (h.findByTag name)[place]?
  | .cssClass name place => (h.findByClass name)[place]?

def NodeRef.resolve (ref : NodeRef) : Play NodeId := do
  match ref.resolve? (← get).host with
  | some n => pure n
  | none => Play.fail .noNode

end Parlance
