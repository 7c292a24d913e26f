import Parlance.Lexicon.Basic

/-! The `html` lexicon, the vocabulary that the engine understands. Its atoms are the instructions of the
engine. Names of tags and events are compounds that develop into a single `tag` or `on`, and the words that
take trailing arguments are aliases that pack them into a list. -/

namespace Parlance.Html

/-- The name of the lexicon. -/
def space : String := "html"

def atoms : List String :=
  ["tag", "attr", "prop", "data", "class", "classes", "id", "style", "text", "onDom", "if", "each", "html",
    "component", "ref"]

/-- The tags that are words taking the children. -/
def tags : List String :=
  ["body", "div", "h1", "h2", "h3", "h4", "h5", "section", "span", "button", "main", "article", "hr",
    "header", "footer", "label", "ul", "li", "p", "small", "b", "strong", "i", "u", "em", "title", "meta",
    "table", "tr", "td", "th", "thead", "tbody", "form", "br", "nav", "aside", "pre", "code", "select",
    "textarea"]

/-- The events that are words taking the handler and its further arguments. -/
def events : List String :=
  ["click", "dblclick", "blur", "focus", "submit", "change", "keyup", "keydown", "keypress", "mouseover",
    "mousedown", "mouseup", "mouseout", "touchstart", "touchend", "touchcancel", "touchleave", "touchmove",
    "drop", "dragover", "dragstart"]

/-- A body that is not announced. -/
def body (calls : List Call) : Body := ⟨none, calls⟩

def aliases : List (String × Body) :=
  [("on", body [.append space "on" [.arg 0, .arg 1, .list [.rest 2]]]),
    ("execute", body [.append space "execute" [.arg 0, .list [.rest 1]]]),
    ("switchUse", body [.append space "switchUse" [.arg 0, .list [.rest 1]]])]

def tagBody (tag : String) : Body := body [.word "tag" [.str tag, .list [.rest 0]]]

def eventBody (event : String) : Body := body [.word "on" [.str event, .rest 0]]

/-- A sentence argument built from calls. -/
def phrase (calls : List Call) : Expr := .sentence calls none none

/-- A tag whose children are its own attributes and what else is given. -/
def withHead (tag : String) (head : List Call) (others : List Expr) : Call :=
  .word "tag" [.str tag, .list (phrase head :: others)]

/-- Tags with attributes of their own, inputs, and short forms of attributes. -/
def helpers : List (String × Body) :=
  [("a", body [withHead "a" [.word "attr" [.str "href", .arg 0]] [.rest 1]]),
    ("img", body [withHead "img" [.word "attr" [.str "src", .arg 0]] [.rest 1]]),
    ("input", body [withHead "input"
      [.word "attr" [.str "type", .arg 0], .word "prop" [.str "value", .arg 1]] [.given (.arg 2)]]),
    ("textInput", body [.word "input" [.str "text", .arg 0, .arg 1]]),
    ("passwordInput", body [.word "input" [.str "password", .arg 0, .arg 1]]),
    ("checkbox", body [withHead "input"
      [.word "attr" [.str "type", .str "checkbox"], .word "prop" [.str "checked", .truthy (.arg 0)]]
      [.given (.arg 1)]]),
    ("radio", body [withHead "input"
      [.word "attr" [.str "type", .str "radio"], .word "prop" [.str "checked", .truthy (.arg 0)]]
      [.given (.arg 1)]]),
    ("option", body [withHead "option"
      [.word "attr" [.str "value", .arg 0], .word "prop" [.str "selected", .truthy (.arg 2)]]
      [.given (.arg 1)]]),
    ("link", body [withHead "link"
      [.word "attr" [.str "href", .arg 0], .word "attr" [.str "rel", .arg 1]] [.given (.arg 2)]]),
    ("linkCss", body [.word "link"
      [.arg 0, .str "stylesheet", phrase [.word "attr" [.str "type", .str "text/css"]]]]),
    ("script", body [withHead "script"
      [.word "attr" [.str "src", .arg 0], .word "attr" [.str "type", .str "text/javascript"]]
      [.given (.arg 1)]]),
    ("nbsp", body [.word "text" [.str "\u00a0"]]),
    ("visible", body [.word "style"
      [.str "visibility", .choose (.arg 0) (.str "visible") (.str "hidden")]]),
    ("display", body [.word "style"
      [.str "display", .choose (.same (.arg 0) (.join [.arg 0])) (.arg 0)
        (.choose (.arg 0) (.str "block") (.str "none"))]]),
    ("disabled", body [.word "prop" [.str "disabled", .truthy (.arg 0)]])]

/-- The built-in vocabulary. -/
def lexicon : Lexicon :=
  (Lexicon.new space none).addAtoms atoms
    |>.addAliases aliases
    |>.addCompounds (tags.map fun tag => (tag, tagBody tag))
    |>.addCompounds (events.map fun event => (event, eventBody event))
    |>.addCompounds helpers

end Parlance.Html
