import Parlance.Text.Sorted
import Parlance.Sentence.Basic
import Parlance.Host.Mutation

/-! A host: a tree of nodes in memory, built by primitive calls that are all recorded. Nodes are never
destroyed; a node that is removed is only unlinked. Every link is kept twice, in the children of the parent
and in the parent of the child. Calls that name a node the host does not have change no node. -/

namespace Parlance

inductive NodeKind where
  | root
  | element (tag : String)
  | text (value : String)
  /-- A node without width that ends the output of an instruction. -/
  | marker (label : String)
  /-- Markup that is written as it stands. -/
  | raw (markup : String)
deriving DecidableEq, Inhabited

/-- What a node shows, apart from its place in the tree. -/
structure Content where
  kind : NodeKind
  id : Option String
  attributes : Entries String
  classes : List String
  properties : Entries Scalar
  dataset : Entries String
  style : Entries String
deriving DecidableEq, Inhabited

/-- The content of a new node. -/
def Content.new (kind : NodeKind) : Content := ⟨kind, none, [], [], [], [], []⟩

structure Node where
  content : Content
  parent : Option NodeId
  children : List NodeId
  /-- The listeners in the order of binding, with the names of their events. -/
  listeners : List (ListenerId × String)
deriving Inhabited

def Node.new (kind : NodeKind) : Node := ⟨Content.new kind, none, [], []⟩

/-- What a listener calls: a handler, with further arguments. -/
structure Listener where
  handler : Identity
  extra : List Arg

structure Host where
  nodes : Array Node
  /-- What each listener calls, by its number; the first one stands at the beginning. -/
  listeners : Array Listener
  /-- The calls received so far, oldest first. -/
  mutations : Array Mutation

namespace Host

/-- A host with nothing but its root. -/
def new : Host := ⟨#[Node.new .root], #[], #[]⟩

def root : NodeId := ⟨0⟩

def node (h : Host) (n : NodeId) : Node := h.nodes.getD n.index default

/-- Whether the host has given out a node id. -/
def has (h : Host) (n : NodeId) : Bool := n.index < h.nodes.size

def children (h : Host) (n : NodeId) : List NodeId := (h.node n).children

def parent (h : Host) (n : NodeId) : Option NodeId := (h.node n).parent

def content (h : Host) (n : NodeId) : Content := (h.node n).content

def modify (h : Host) (n : NodeId) (f : Node → Node) : Host := { h with nodes := h.nodes.modify n.index f }

def modifyContent (h : Host) (n : NodeId) (f : Content → Content) : Host :=
  h.modify n fun node => { node with content := f node.content }

/-- Records a call. -/
def record (h : Host) (m : Mutation) : Host := { h with mutations := h.mutations.push m }

/-- Forgets the calls recorded so far. -/
def clearMutations (h : Host) : Host := { h with mutations := #[] }

/-- The id of the next node. -/
def next (h : Host) : NodeId := ⟨h.nodes.size⟩

/-- Adds a node that is not linked yet; its id is `h.next`. -/
def alloc (h : Host) (kind : NodeKind) : Host := { h with nodes := h.nodes.push (Node.new kind) }

def createElement (h : Host) (tag : String) : NodeId × Host :=
  (h.next, (h.alloc (.element tag)).record (.createElement h.next tag))

def createText (h : Host) (value : String) : NodeId × Host :=
  (h.next, (h.alloc (.text value)).record (.createText h.next value))

def createMarker (h : Host) (label : String) : NodeId × Host :=
  (h.next, (h.alloc (.marker label)).record (.createMarker h.next label))

/-- Takes a node out of the children of a node. -/
def dropChild (h : Host) (parent child : NodeId) : Host :=
  h.modify parent fun node => { node with children := node.children.filter (· ≠ child) }

def setParent (h : Host) (n : NodeId) (parent : Option NodeId) : Host :=
  h.modify n fun node => { node with parent }

/-- Unlinks a node from its parent, if it has one. -/
def detach (h : Host) (n : NodeId) : Host :=
  let h := match h.parent n with
    | some parent => h.dropChild parent n
    | none => h
  h.setParent n none

def appendChild (h : Host) (parent child : NodeId) : Host :=
  let h := (h.detach child).modify parent fun node => { node with children := node.children ++ [child] }
  (h.setParent child (some parent)).record (.append parent child)

/-- A list with a node put before a reference, or at the end where there is no such reference. -/
def placeBefore (n reference : NodeId) : List NodeId → List NodeId
  | [] => [n]
  | c :: cs => if c = reference then n :: c :: cs else c :: placeBefore n reference cs

def insertBefore (h : Host) (parent n reference : NodeId) : Host :=
  let h := (h.detach n).modify parent fun node =>
    { node with children := placeBefore n reference node.children }
  (h.setParent n (some parent)).record (.insertBefore parent n reference)

def removeChild (h : Host) (parent child : NodeId) : Host :=
  ((h.dropChild parent child).setParent child none).record (.remove parent child)

/-- Puts a node before an anchor, or at the end where there is none. -/
def place (h : Host) (parent n : NodeId) (anchor : Option NodeId) : Host :=
  match anchor with
  | some reference => h.insertBefore parent n reference
  | none => h.appendChild parent n

/-- Puts markup under a parent, before an anchor or at the end. -/
def insertRaw (h : Host) (parent : NodeId) (markup : String) (anchor : Option NodeId) : List NodeId × Host :=
  let n := h.next
  let h := (h.alloc (.raw markup)).modify parent fun node =>
    { node with
      children := match anchor with
        | some reference => placeBefore n reference node.children
        | none => node.children ++ [n] }
  ([n], (h.setParent n (some parent)).record (.insertRaw parent markup))

def setText (h : Host) (n : NodeId) (value : String) : Host :=
  (h.modifyContent n fun c => { c with kind := .text value }).record (.setText n value)

def setAttribute (h : Host) (n : NodeId) (name value : String) : Host :=
  (h.modifyContent n fun c => { c with attributes := c.attributes.put name value }).record
    (.setAttribute n name value)

def removeAttribute (h : Host) (n : NodeId) (name : String) : Host :=
  (h.modifyContent n fun c => { c with attributes := c.attributes.erase name }).record
    (.removeAttribute n name)

def addClass (h : Host) (n : NodeId) (name : String) : Host :=
  (h.modifyContent n fun c => { c with
    classes := if name ∈ c.classes then c.classes else c.classes ++ [name] }).record (.addClass n name)

def removeClass (h : Host) (n : NodeId) (name : String) : Host :=
  (h.modifyContent n fun c => { c with classes := c.classes.filter (· ≠ name) }).record (.removeClass n name)

def toggleClass (h : Host) (n : NodeId) (name : String) : Host :=
  (h.modifyContent n fun c => { c with
    classes := if name ∈ c.classes then c.classes.filter (· ≠ name) else c.classes ++ [name] }).record
    (.toggleClass n name)

/-- The value of a property; reading it is not recorded. -/
def property? (h : Host) (n : NodeId) (name : String) : Option Scalar := (h.content n).properties.get? name

def setProperty (h : Host) (n : NodeId) (name : String) (value : Scalar) : Host :=
  (h.modifyContent n fun c => { c with properties := c.properties.put name value }).record
    (.setProperty n name value)

def removeProperty (h : Host) (n : NodeId) (name : String) : Host :=
  (h.modifyContent n fun c => { c with properties := c.properties.erase name }).record
    (.removeProperty n name)

def setDataset (h : Host) (n : NodeId) (key value : String) : Host :=
  (h.modifyContent n fun c => { c with dataset := c.dataset.put key value }).record (.setDataset n key value)

def removeDataset (h : Host) (n : NodeId) (key : String) : Host :=
  (h.modifyContent n fun c => { c with dataset := c.dataset.erase key }).record (.removeDataset n key)

def setStyle (h : Host) (n : NodeId) (key value : String) : Host :=
  (h.modifyContent n fun c => { c with style := c.style.put key value }).record (.setStyle n key value)

def removeStyle (h : Host) (n : NodeId) (key : String) : Host :=
  (h.modifyContent n fun c => { c with style := c.style.erase key }).record (.removeStyle n key)

def setId (h : Host) (n : NodeId) (id : String) : Host :=
  (h.modifyContent n fun c => { c with id := some id }).record (.setId n id)

def clearId (h : Host) (n : NodeId) : Host :=
  (h.modifyContent n fun c => { c with id := none }).record (.clearId n)

/-- Binds a listener to an event of a node. -/
def addListener (h : Host) (n : NodeId) (event : String) (listener : Listener) : ListenerId × Host :=
  let id : ListenerId := ⟨h.listeners.size + 1⟩
  let h := { h with listeners := h.listeners.push listener }
  (id, (h.modify n fun node => { node with listeners := node.listeners ++ [(id, event)] }).record
    (.addListener n event))

def removeListener (h : Host) (n : NodeId) (event : String) (id : ListenerId) : Host :=
  (h.modify n fun node => { node with listeners := node.listeners.filter (·.1 ≠ id) }).record
    (.removeListener n event)

/-- Gives a listener something else to call. Nothing on the nodes changes, so it is not recorded. -/
def rebind (h : Host) (id : ListenerId) (listener : Listener) : Host :=
  { h with listeners := h.listeners.modify (id.number - 1) fun _ => listener }

/-- What an event on a node calls, in the order of binding. -/
def heard (h : Host) (n : NodeId) (event : String) : List Listener :=
  ((h.node n).listeners.filter (·.2 = event)).filterMap fun l => h.listeners[l.1.number - 1]?

end Host

end Parlance
