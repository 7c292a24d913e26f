import Parlance.Sentence.Scalar

/-! The primitive changes that a host records, and how each is described on one line. -/

namespace Parlance

/-- A node of a host, by the order of creation; the root comes first. -/
structure NodeId where
  index : Nat
deriving DecidableEq, Inhabited

/-- A listener of a host, counted from one. -/
structure ListenerId where
  number : Nat
deriving DecidableEq

/-- How a node is named in descriptions. -/
def NodeId.mark (n : NodeId) : String := s!"#{n.index}"

inductive Mutation where
  | createElement (node : NodeId) (tag : String)
  | createText (node : NodeId) (value : String)
  | createMarker (node : NodeId) (label : String)
  | append (parent child : NodeId)
  | insertBefore (parent node reference : NodeId)
  | remove (parent child : NodeId)
  | setText (node : NodeId) (value : String)
  | setAttribute (node : NodeId) (name value : String)
  | removeAttribute (node : NodeId) (name : String)
  | addClass (node : NodeId) (name : String)
  | removeClass (node : NodeId) (name : String)
  | toggleClass (node : NodeId) (name : String)
  | setProperty (node : NodeId) (name : String) (value : Scalar)
  | removeProperty (node : NodeId) (name : String)
  | setDataset (node : NodeId) (key value : String)
  | removeDataset (node : NodeId) (key : String)
  | setStyle (node : NodeId) (key value : String)
  | removeStyle (node : NodeId) (key : String)
  | addListener (node : NodeId) (event : String)
  | removeListener (node : NodeId) (event : String)
  | setId (node : NodeId) (id : String)
  | clearId (node : NodeId)
  | insertRaw (parent : NodeId) (markup : String)
deriving DecidableEq

open Text in
def Mutation.describe : Mutation → String
  | createElement node tag => s!"create <{tag}> {node.mark}"
  | createText node value => s!"create text {quoted value} {node.mark}"
  | createMarker node label => s!"create marker {label} {node.mark}"
  | append parent child => s!"append {child.mark} to {parent.mark}"
  | insertBefore parent node reference => s!"insert {node.mark} into {parent.mark} before {reference.mark}"
  | remove parent child => s!"remove {child.mark} from {parent.mark}"
  | setText node value => s!"text {node.mark} = {quoted value}"
  | setAttribute node name value => s!"attr {node.mark} {name}={quoted value}"
  | removeAttribute node name => s!"attr {node.mark} -{name}"
  | addClass node name => s!"class {node.mark} +{name}"
  | removeClass node name => s!"class {node.mark} -{name}"
  | toggleClass node name => s!"class {node.mark} ~{name}"
  | setProperty node name value => s!"prop {node.mark} {name}={value.toText}"
  | removeProperty node name => s!"prop {node.mark} -{name}"
  | setDataset node key value => s!"data {node.mark} {key}={quoted value}"
  | removeDataset node key => s!"data {node.mark} -{key}"
  | setStyle node key value => s!"style {node.mark} {key}: {value}"
  | removeStyle node key => s!"style {node.mark} -{key}"
  | addListener node event => s!"listen {node.mark} {event}"
  | removeListener node event => s!"unlisten {node.mark} {event}"
  | setId node id => s!"id {node.mark} = {quoted id}"
  | clearId node => s!"id {node.mark} cleared"
  | insertRaw parent markup => s!"raw into {parent.mark} {quoted markup}"

end Parlance
