import Parlance.Engine.Instruction

/-! Passes: what the engine does between two states of a host. A pass changes the host and the table of
components, and it runs functions that belong to a world the engine knows nothing about. What those
functions do is given by a `Behaviour`, so that everything the engine does is the same for every world. -/

namespace Parlance

/-- What a component is told in the course of its life, apart from being asked for its view. -/
inductive Lifecycle where
  | willMount
  | didMount
  | setProps (props : Arg)
  | willUnmount
  | didUnmount

/-- How bodies, functions, hooks and components are run in a world. -/
structure Behaviour (ω : Type) extends Interpreter ω where
  /-- Calls a render function with an item and its index. -/
  render : Identity → Arg → Nat → Act ω Sentence
  callback : Identity → List Arg → Act ω Unit
  hookRender : Identity → NodeId → List Arg → Host → Act ω Host
  /-- Calls a hook with its arguments and those of the pass before. -/
  hookDiff : Identity → NodeId → List Arg → List Arg → Host → Act ω Host
  hookRemove : Identity → NodeId → List Arg → Host → Act ω Host
  create : Factory → InstanceId → Arg → Act ω Unit
  /-- Asks a component for its output. -/
  view : InstanceId → Act ω Sentence
  lifecycle : InstanceId → Lifecycle → Act ω Unit

/-- Everything that a pass may change. -/
structure Stage (ω : Type) where
  host : Host
  instances : Array Instance
  world : ω

/-- A pass. It keeps its effects also when it fails. -/
abbrev Pass (ω α : Type) := EStateM (Halt PassError) (Stage ω) α

/-- A sentence that is to be put on a host, with the identity of the argument that held it, if any. -/
structure Phrase where
  identity : Option Identity
  sentence : Sentence

/-- A sentence that was not an argument. -/
def Phrase.new (s : Sentence) : Phrase := ⟨none, s⟩

/-- Where a pass writes: the parent, a node to insert before, and the component whose output it is. -/
structure Cursor where
  parent : NodeId
  anchor : Option NodeId
  component : Option InstanceId

namespace Cursor

def root (parent : NodeId) : Cursor := ⟨parent, none, none⟩

/-- At the end of a node. -/
def inside (c : Cursor) (node : NodeId) : Cursor := ⟨node, none, c.component⟩

/-- Under the same parent, before a node. -/
def before (c : Cursor) (node : NodeId) : Cursor := { c with anchor := some node }

end Cursor

namespace Pass

variable {ω α ε : Type}

def fail (e : PassError) : Pass ω α := throw (.error e)

def ofExcept : Except PassError α → Pass ω α
  | .ok a => pure a
  | .error e => fail e

/-- An attempt in the world, with its errors put as errors of a pass. -/
def attempt (cause : ε → PassError) (action : Attempt ε ω α) : Pass ω α := fun stage =>
  match action stage.world with
  | .ok a world => .ok a { stage with world }
  | .error (.error e) world => .error (.error (cause e)) { stage with world }
  | .error (.trouble t) world => .error (.trouble t) { stage with world }

/-- An action in the world. -/
def act (action : Act ω α) : Pass ω α := fun stage =>
  match action stage.world with
  | .ok a world => .ok a { stage with world }
  | .error t world => .error (.trouble t) { stage with world }

/-- An action in the world that is given the host. -/
def actOnHost (action : Host → Act ω Host) : Pass ω Unit := fun stage =>
  match action stage.host stage.world with
  | .ok host world => .ok () { stage with host, world }
  | .error t world => .error (.trouble t) { stage with world }

/-- A change of the host. -/
def edit (f : Host → Host) : Pass ω Unit := modify fun stage => { stage with host := f stage.host }

/-- A change of the host with a result. -/
def make (f : Host → α × Host) : Pass ω α := modifyGet fun stage =>
  let (a, host) := f stage.host
  (a, { stage with host })

def host : Pass ω Host := do pure (← get).host

def instances : Pass ω (Array Instance) := do pure (← get).instances

/-- Changes a component in the table. -/
def editInstance (id : InstanceId) (f : Instance → Instance) : Pass ω Unit :=
  modify fun stage => { stage with instances := stage.instances.modify id.index f }

/-- Puts a marker at the cursor. -/
def witness (e : Engine) (c : Cursor) (label : String) : Pass ω NodeId := make fun host =>
  let (marker, host) := host.createMarker (if e.config.labelMarkers then label else "")
  (marker, host.place c.parent marker c.anchor)

end Pass

end Parlance
