import Parlance.Engine.Pass

/-! Removing an output. First its components are sought, innermost first, and hooks are told on the way that
they are removed. Then every component hears that it will be unmounted, the nodes are taken off the host,
and every component hears that it has been. Elements are taken off as a whole, so nothing inside them is
visited; what was written on a node that stays is cleared. -/

namespace Parlance

/-- Clears what an instruction wrote on a node. -/
def Lexem.clear (node : NodeId) (lexem : Lexem) (h : Host) : Host :=
  let key := (lexem.arg 0).toText
  match Instruction.ofName? lexem.name with
  | some .attr => h.removeAttribute node key
  | some .prop => h.removeProperty node key
  | some .data => h.removeDataset node key
  | some .style => h.removeStyle node key
  | some .cssClass =>
      match lexem.presentClass? with
      | some name => h.removeClass node name
      | none => h
  | some .classes => lexem.splitClasses.foldl (fun h name => h.removeClass node name) h
  | some .id => h.clearId node
  | _ => h

mutual

/-- Takes what belongs to a slot off a parent; `within` does it for a component. -/
def Slot.detach (within : InstanceId → Host → Host) (parent : NodeId) (lexem : Lexem) (h : Host) : Slot → Host
  | .attribute => lexem.clear parent h
  | .element node _ => h.removeChild parent node
  | .text node => h.removeChild parent node
  | .listener id => h.removeListener parent (lexem.arg 0).toText id
  | .branch witness developed => (detachOption within parent h developed).removeChild parent witness
  | .each witness items => (detachAll within parent h items).removeChild parent witness
  | .raw witness nodes => (nodes.foldl (fun h n => h.removeChild parent n) h).removeChild parent witness
  | .component id => within id h
  | .compound developed => developed.detachWith within parent h
  | _ => h

def Rendered.detachWith (within : InstanceId → Host → Host) (parent : NodeId) (h : Host) : Rendered → Host
  | ⟨_, sentence, slots⟩ => detachSlots within parent h sentence.lexems slots

def detachSlots (within : InstanceId → Host → Host) (parent : NodeId) (h : Host) :
    List Lexem → List Slot → Host
  | lexem :: lexems, slot :: slots =>
      detachSlots within parent (slot.detach within parent lexem h) lexems slots
  | _, _ => h

def detachAll (within : InstanceId → Host → Host) (parent : NodeId) (h : Host) : List Rendered → Host
  | [] => h
  | r :: rs => detachAll within parent (r.detachWith within parent h) rs

def detachOption (within : InstanceId → Host → Host) (parent : NodeId) (h : Host) : Option Rendered → Host
  | none => h
  | some r => r.detachWith within parent h

end

/-- Takes the output of a component and its marker off the parent that it was mounted under. As for its
nodes, the table bounds how deep components are nested. -/
def detachComponent (table : Array Instance) : Nat → InstanceId → Host → Host
  | 0, _, h => h
  | depth + 1, id, h =>
      match table[id.index]? with
      | none => h
      | some c =>
          let h := match c.developed with
            | some r => r.detachWith (detachComponent table depth) c.parent h
            | none => h
          match c.witness with
          | some witness => h.removeChild c.parent witness
          | none => h

variable {ω : Type} (b : Behaviour ω)

mutual

/-- The components of a slot, innermost first; `within` gives those of a component. -/
def Slot.seek (within : InstanceId → Pass ω (List InstanceId)) (lexem : Lexem) :
    Slot → Pass ω (List InstanceId)
  | .element _ children => seekAll within children
  | .branch _ developed => seekOption within developed
  | .each _ items => seekAll within items
  | .hook node => do
      match lexem.hookArg with
      | .ok hook => Pass.actOnHost (b.hookRemove hook node lexem.hookArgs)
      | .error _ => pure ()
      pure []
  | .component id => within id
  | .compound developed => developed.seekWith within
  | _ => pure []

def Rendered.seekWith (within : InstanceId → Pass ω (List InstanceId)) :
    Rendered → Pass ω (List InstanceId)
  | ⟨_, sentence, slots⟩ => seekSlots within sentence.lexems slots

def seekSlots (within : InstanceId → Pass ω (List InstanceId)) :
    List Lexem → List Slot → Pass ω (List InstanceId)
  | lexem :: lexems, slot :: slots => do
      let found ← slot.seek within lexem
      pure (found ++ (← seekSlots within lexems slots))
  | _, _ => pure []

def seekAll (within : InstanceId → Pass ω (List InstanceId)) : List Rendered → Pass ω (List InstanceId)
  | [] => pure []
  | r :: rs => do
      let found ← r.seekWith within
      pure (found ++ (← seekAll within rs))

def seekOption (within : InstanceId → Pass ω (List InstanceId)) : Option Rendered → Pass ω (List InstanceId)
  | none => pure []
  | some r => r.seekWith within

end

/-- The components in the output of a component, followed by the component. -/
def seekComponent : Nat → InstanceId → Pass ω (List InstanceId)
  | 0, _ => pure []
  | depth + 1, id => do
      match (← Pass.instances)[id.index]? with
      | none => pure []
      | some c =>
          let found ← match c.developed with
            | some r => r.seekWith b (seekComponent depth)
            | none => pure []
          pure (found ++ [id])

namespace Pass

/-- Runs a change of the host between the two announcements to components that it unmounts. The change is
given the table of components. -/
def unmounting (found : List InstanceId) (detach : Array Instance → Host → Host) : Pass ω Unit := do
  found.forM fun id => act (b.lifecycle id .willUnmount)
  let table ← instances
  edit (detach table)
  found.forM fun id => do
    act (b.lifecycle id .didUnmount)
    editInstance id fun c => { c with developed := none, refs := [] }

/-- Removes an output from its parent. -/
def teardown (parent : NodeId) (r : Rendered) : Pass ω Unit := do
  let found ← r.seekWith b (seekComponent b (← instances).size)
  unmounting b found fun table => fun h => r.detachWith (detachComponent table table.size) parent h

/-- Removes what belongs to one slot from its parent. -/
def teardownSlot (parent : NodeId) (lexem : Lexem) (slot : Slot) : Pass ω Unit := do
  let found ← slot.seek b (seekComponent b (← instances).size) lexem
  unmounting b found fun table => fun h => slot.detach (detachComponent table table.size) parent lexem h

end Pass

end Parlance
