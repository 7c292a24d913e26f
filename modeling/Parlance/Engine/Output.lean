import Parlance.Engine.Diff

/-! The passes as they are called from outside: rendering, diffing and removing the output of a sentence
under a parent, and rendering a single component again. A sentence that is handed in from outside was no
argument, so it never counts as the very one that was rendered before. -/

namespace Parlance

namespace Engine

/-- How deep sentences may be nested. -/
def depthLimit : Nat := 10000

variable {ω : Type} (b : Behaviour ω)

/-- Puts the output of a sentence at the end of a parent. -/
def render (e : Engine) (parent : NodeId) (s : Sentence) : Pass ω Rendered :=
  renderWithin b depthLimit e (Cursor.root parent) (.new s)

/-- Brings an output to that of another sentence. -/
def diff (e : Engine) (parent : NodeId) (s : Sentence) (previous : Rendered) : Pass ω Rendered :=
  diffWithin b depthLimit e (Cursor.root parent) (.new s) previous

/-- Renders if there is no output yet, and diffs if there is. -/
def output (e : Engine) (parent : NodeId) (s : Sentence) : Option Rendered → Pass ω Rendered
  | some previous => e.diff b parent s previous
  | none => e.render b parent s

/-- Removes an output. -/
def remove (parent : NodeId) (r : Rendered) : Pass ω Unit := Pass.teardown b parent r

/-- Renders a component again from its own state. -/
def updateComponent (id : InstanceId) : Pass ω Unit := update b (diffWithin b depthLimit) id

end Engine

namespace Instance

def isMounted (i : Instance) : Bool := i.developed.isSome

/-- The node that the output of a component gave a name to. -/
def nodeRef (i : Instance) (name : String) : Except PassError NodeId :=
  match i.refs.get? name with
  | some node => .ok node
  | none => .error (.undeclared name)

/-- The components that the output of a component mounted itself. -/
def children (i : Instance) : List InstanceId :=
  match i.developed with
  | some r => r.components
  | none => []

/-- One line about a component. -/
def describe (i : Instance) : String :=
  s!"ComponentHandle \x7b name: {Text.quoted i.factory.typeName}, mounted: {i.isMounted} \x7d"

end Instance

/-- One line about a factory. -/
def Factory.describe (f : Factory) : String := s!"ComponentFactory({Text.quoted f.typeName})"

end Parlance
