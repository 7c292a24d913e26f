import Parlance.Host.Basic

/-! The tree under a node, and its markup. The markup of an element shows its id, its classes, its
attributes, its dataset and its style, in this order; properties are not shown. Texts and values are
escaped, raw markup is not, and markers show as comments or not at all. -/

namespace Parlance

/-- A node with everything under it, without the ids of the nodes. -/
inductive Tree where
  | node (content : Content) (children : List Tree)

/-- The tree at a node, down to a depth. -/
def Host.treeTo (h : Host) : Nat → NodeId → Tree
  | 0, n => .node (h.content n) []
  | depth + 1, n => .node (h.content n) ((h.children n).map (h.treeTo depth))

/-- The tree at a node. No path without a repeated node is longer than the number of nodes. -/
def Host.tree (h : Host) (n : NodeId) : Tree := h.treeTo h.nodes.size n

def Tree.content : Tree → Content
  | .node content _ => content

def Tree.children : Tree → List Tree
  | .node _ children => children

namespace Markup

def escapeChar (c : Char) : List Char :=
  if c = '&' then "&amp;".toList
  else if c = '<' then "&lt;".toList
  else if c = '>' then "&gt;".toList
  else if c = '"' then "&quot;".toList
  else [c]

/-- A text that is neither markup nor the end of a quoted value. -/
def escape (s : String) : String := String.ofList (s.toList.flatMap escapeChar)

/-- The attributes that the start tag of an element shows. -/
def shown (c : Content) : List (String × String) :=
  (c.id.toList.map fun id => ("id", id)) ++
  (if c.classes.isEmpty then [] else [("class", " ".intercalate c.classes)]) ++
  c.attributes ++
  (c.dataset.map fun e => ("data-" ++ e.1, e.2)) ++
  (if c.style.isEmpty then [] else [("style", " ".intercalate (c.style.map fun e => s!"{e.1}: {e.2};"))])

/-- One attribute in a start tag. -/
def attributeText (entry : String × String) : String := s!" {entry.1}=\"{escape entry.2}\""

mutual

/-- The markup of a tree, with or without its markers. -/
def write (markers : Bool) : Tree → String
  | .node c children =>
      match c.kind with
      | .root => ""
      | .text value => escape value
      | .raw markup => markup
      | .marker label => if markers then s!"<!--{label}-->" else ""
      | .element tag =>
          "<" ++ tag ++ String.join ((shown c).map attributeText) ++ ">" ++ writeAll markers children ++
            "</" ++ tag ++ ">"

def writeAll (markers : Bool) : List Tree → String
  | [] => ""
  | t :: ts => write markers t ++ writeAll markers ts

end

end Markup

/-- The markup of everything under a node, without markers. -/
def Host.toHtml (h : Host) (n : NodeId) : String := Markup.writeAll false (h.tree n).children

/-- The markup of everything under a node, with markers as comments. -/
def Host.toHtmlWithMarkers (h : Host) (n : NodeId) : String := Markup.writeAll true (h.tree n).children

/-- One line about a host. -/
def Host.describe (h : Host) : String := s!"MemoryHost({h.toHtmlWithMarkers Host.root})"

end Parlance
