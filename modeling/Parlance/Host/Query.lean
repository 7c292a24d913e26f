import Parlance.Host.Basic

/-! Questions about a host: what is attached, what stands under a node, and which nodes have an id, a tag
or a class. Descendants are listed by a walk with a stack, in the order of the markup. -/

namespace Parlance.Host

/-- Whether the root is reached from a node by at most so many steps to the parent. -/
def reachesRoot (h : Host) : Nat → NodeId → Bool
  | 0, n => n = root
  | steps + 1, n =>
      n = root || match h.parent n with
        | some parent => h.reachesRoot steps parent
        | none => false

def isAttached (h : Host) (n : NodeId) : Bool := h.reachesRoot h.nodes.size n

/-- Takes a node off the stack and puts its children there in its place. -/
def walk (h : Host) : Nat → List NodeId → List NodeId
  | 0, _ => []
  | _ + 1, [] => []
  | steps + 1, n :: stack => n :: h.walk steps (h.children n ++ stack)

/-- Everything under a node, parents before children. -/
def descendants (h : Host) (n : NodeId) : List NodeId := h.walk (Nat.pow (h.nodes.size + 1) 2) (h.children n)

def isMarker (h : Host) (n : NodeId) : Bool :=
  match (h.content n).kind with
  | .marker _ => true
  | _ => false

/-- The children of a node other than markers. -/
def visibleChildren (h : Host) (n : NodeId) : List NodeId := (h.children n).filter (!h.isMarker ·)

def hasClass (h : Host) (n : NodeId) (name : String) : Bool := name ∈ (h.content n).classes

def findById (h : Host) (id : String) : Option NodeId :=
  (h.descendants root).find? fun n => (h.content n).id = some id

def findByTag (h : Host) (tag : String) : List NodeId :=
  (h.descendants root).filter fun n => (h.content n).kind = .element tag

def findByClass (h : Host) (name : String) : List NodeId := (h.descendants root).filter (h.hasClass · name)

/-- The text of a node, if it is a text. -/
def ownText (h : Host) (n : NodeId) : String :=
  match (h.content n).kind with
  | .text value => value
  | _ => ""

/-- The texts at and under a node, one after the other. -/
def textContent (h : Host) (n : NodeId) : String :=
  String.join ((n :: h.descendants n).map h.ownText)

/-- The kind of a node as descriptions show it. -/
def describeKind : NodeKind → String
  | .root => "Root"
  | .element tag => s!"Element({Text.quoted tag})"
  | .text value => s!"Text({Text.quoted value})"
  | .marker label => s!"Marker({Text.quoted label})"
  | .raw markup => s!"Raw({Text.quoted markup})"

end Parlance.Host
