import Parlance.Session.Basic

/-! Calling a host directly, without the engine. -/

namespace Parlance

inductive HostCall where
  | createElement (tag : String)
  | createText (value : String)
  | createMarker (label : String)
  | appendChild (parent child : NodeRef)
  | insertBefore (parent node reference : NodeRef)
  | removeChild (parent child : NodeRef)
  | childNodes (parent : NodeRef)
  | setText (node : NodeRef) (value : String)
  | setAttribute (node : NodeRef) (name value : String)
  | removeAttribute (node : NodeRef) (name : String)
  | addClass (node : NodeRef) (name : String)
  | removeClass (node : NodeRef) (name : String)
  | toggleClass (node : NodeRef) (name : String)
  | property (node : NodeRef) (name : String)
  | setProperty (node : NodeRef) (name : String) (value : Scalar)
  | removeProperty (node : NodeRef) (name : String)
  | setDataset (node : NodeRef) (key value : String)
  | removeDataset (node : NodeRef) (key : String)
  | setStyle (node : NodeRef) (key value : String)
  | removeStyle (node : NodeRef) (key : String)
  /-- Binds a listener that only leaves a line under a label. -/
  | addListener (node : NodeRef) (event label : String)
  | removeListener (node : NodeRef) (event : String) (id : ListenerId)
  | setId (node : NodeRef) (id : String)
  | clearId (node : NodeRef)
  | insertRaw (parent : NodeRef) (markup : String) (anchor : Option NodeRef)

/-- What a host answers. -/
inductive HostReply where
  | nothing
  | node (n : NodeId)
  | nodes (ns : List NodeId)
  | listener (id : ListenerId)
  | property (value : Option Scalar)

namespace HostCall

/-- A change of one node. -/
def on (ref : NodeRef) (f : NodeId → Host → Host) : Play HostReply := do
  let n ← ref.resolve
  Play.known n
  Play.edit (·.editHost (f n))
  pure .nothing

/-- A change of two nodes, of which the second is looked at first. -/
def link (first second : NodeRef) (f : NodeId → NodeId → Host → Host) : Play HostReply := do
  let a ← first.resolve
  let b ← second.resolve
  Play.known b
  Play.known a
  Play.edit (·.editHost (f a b))
  pure .nothing

def perform : HostCall → Play HostReply
  | createElement tag => do pure (.node (← Play.make (·.createElement tag)))
  | createText value => do pure (.node (← Play.make (·.createText value)))
  | createMarker label => do pure (.node (← Play.make (·.createMarker label)))
  | appendChild parent child => link parent child fun p c h => h.appendChild p c
  | insertBefore parent node reference => do
      let p ← parent.resolve
      let n ← node.resolve
      let r ← reference.resolve
      Play.known n
      Play.known p
      Play.edit (·.editHost fun h => h.insertBefore p n r)
      pure .nothing
  | removeChild parent child => link child parent fun c p h => h.removeChild p c
  | childNodes parent => do
      let p ← parent.resolve
      Play.known p
      pure (.nodes ((← get).host.children p))
  | setText node value => on node fun n h => h.setText n value
  | setAttribute node name value => on node fun n h => h.setAttribute n name value
  | removeAttribute node name => on node fun n h => h.removeAttribute n name
  | addClass node name => on node fun n h => h.addClass n name
  | removeClass node name => on node fun n h => h.removeClass n name
  | toggleClass node name => on node fun n h => h.toggleClass n name
  | property node name => do
      let n ← node.resolve
      Play.known n
      pure (.property ((← get).host.property? n name))
  | setProperty node name value => on node fun n h => h.setProperty n name value
  | removeProperty node name => on node fun n h => h.removeProperty n name
  | setDataset node key value => on node fun n h => h.setDataset n key value
  | removeDataset node key => on node fun n h => h.removeDataset n key
  | setStyle node key value => on node fun n h => h.setStyle n key value
  | removeStyle node key => on node fun n h => h.removeStyle n key
  | addListener node event label => do
      let n ← node.resolve
      Play.known n
      let handler ← Play.act (World.alloc (.listener label))
      pure (.listener (← Play.make (·.addListener n event ⟨handler, []⟩)))
  | removeListener node event id => on node fun n h => h.removeListener n event id
  | setId node id => on node fun n h => h.setId n id
  | clearId node => on node fun n h => h.clearId n
  | insertRaw parent markup anchor => do
      let p ← parent.resolve
      let a ← anchor.mapM NodeRef.resolve
      let (nodes, host) := (← get).host.insertRaw p markup a
      -- The new node counts already when the parent is looked at.
      Play.knownTo host p
      Play.edit (·.editHost fun _ => host)
      pure (.nodes nodes)

end HostCall

end Parlance
