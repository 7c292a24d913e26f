import Parlance.Host.Basic
import Parlance.Lexicon.Registry
import Parlance.Engine.Config

/-! What the engine keeps between two passes: for every lexem of a sentence a slot with the nodes, listeners
and components that belong to it, and for every component its own output. Components are kept in a table,
because they can be reached from outside the output that holds them. -/

namespace Parlance

/-- A component that has been made, counted from zero. -/
structure InstanceId where
  index : Nat
deriving DecidableEq

mutual

/-- What is kept for one lexem. -/
inductive Slot where
  /-- The namespace is not a target. -/
  | skipped
  /-- A word that changed the parent node: its attributes, classes, properties or id. -/
  | attribute
  /-- A word that leaves nothing behind. -/
  | effect
  | element (node : NodeId) (children : List Rendered)
  | text (node : NodeId)
  | listener (id : ListenerId)
  /-- What was chosen, before a marker. -/
  | branch (witness : NodeId) (developed : Option Rendered)
  /-- The items, before a marker. -/
  | each (witness : NodeId) (items : List Rendered)
  /-- Markup, before a marker. -/
  | raw (witness : NodeId) (nodes : List NodeId)
  | hook (node : NodeId)
  | component (id : InstanceId)
  | compound (developed : Rendered)

/-- A sentence that has been rendered. A sentence that was an argument has the identity of the argument,
and any other has none. -/
structure Rendered where
  identity : Option Identity
  sentence : Sentence
  slots : List Slot

end

instance : Inhabited Slot := ⟨.skipped⟩

/-- An engine: the lexicons whose words it interprets, and its options. -/
structure Engine where
  targets : Registry
  config : Config

/-- A component that has been made. -/
structure Instance where
  factory : Factory
  engine : Engine
  parent : NodeId
  /-- The marker after its output. -/
  witness : Option NodeId
  developed : Option Rendered
  /-- The nodes that its output gave a name to. -/
  refs : Entries NodeId

mutual

/-- The nodes at the top of an output, in order, with markers; `within` gives those of a component. -/
def Slot.nodesWith (within : InstanceId → List NodeId) : Slot → List NodeId
  | .element node _ => [node]
  | .text node => [node]
  | .branch witness developed => nodesOfOption within developed ++ [witness]
  | .each witness items => nodesOfAll within items ++ [witness]
  | .raw witness nodes => nodes ++ [witness]
  | .component id => within id
  | .compound developed => developed.nodesWith within
  | _ => []

def Rendered.nodesWith (within : InstanceId → List NodeId) : Rendered → List NodeId
  | ⟨_, _, slots⟩ => nodesOfSlots within slots

def nodesOfSlots (within : InstanceId → List NodeId) : List Slot → List NodeId
  | [] => []
  | s :: ss => s.nodesWith within ++ nodesOfSlots within ss

def nodesOfAll (within : InstanceId → List NodeId) : List Rendered → List NodeId
  | [] => []
  | r :: rs => r.nodesWith within ++ nodesOfAll within rs

def nodesOfOption (within : InstanceId → List NodeId) : Option Rendered → List NodeId
  | none => []
  | some r => r.nodesWith within

end

mutual

/-- The components that an output mounted itself, in order, without those inside them. -/
def Slot.components : Slot → List InstanceId
  | .component id => [id]
  | .element _ children => componentsOfAll children
  | .each _ items => componentsOfAll items
  | .branch _ developed => componentsOfOption developed
  | .compound developed => developed.components
  | _ => []

def Rendered.components : Rendered → List InstanceId
  | ⟨_, _, slots⟩ => componentsOfSlots slots

def componentsOfSlots : List Slot → List InstanceId
  | [] => []
  | s :: ss => s.components ++ componentsOfSlots ss

def componentsOfAll : List Rendered → List InstanceId
  | [] => []
  | r :: rs => r.components ++ componentsOfAll rs

def componentsOfOption : Option Rendered → List InstanceId
  | none => []
  | some r => r.components

end

namespace Rendered

def length (r : Rendered) : Nat := r.slots.length

/-- The nodes at the top of an output. A component stands in the table after the one that mounted it, so
the table bounds how deep they are nested. -/
def nodesOfComponent (table : Array Instance) : Nat → InstanceId → List NodeId
  | 0, _ => []
  | depth + 1, id =>
      match table[id.index]? with
      | none => []
      | some c =>
          (match c.developed with
            | some r => r.nodesWith (nodesOfComponent table depth)
            | none => []) ++ c.witness.toList

def nodes (table : Array Instance) (r : Rendered) : List NodeId :=
  r.nodesWith (nodesOfComponent table table.size)

/-- One line about an output. -/
def describe (r : Rendered) : String := s!"Rendered \x7b sentence: {r.sentence.describe} \x7d"

end Rendered

namespace Engine

def new (config : Config) : Engine := ⟨Registry.empty, config⟩

/-- Interprets a lexicon and every lexicon that it inherits from. -/
def addLexicon (e : Engine) (lexicon : Lexicon) : Engine :=
  { e with targets := e.targets.registerWithAncestors lexicon }

def isTarget (e : Engine) (space : String) : Bool := e.targets.contains space

end Engine

end Parlance
