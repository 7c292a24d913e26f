import Parlance.Lexicon.Call

/-! The typed methods of the `html` vocabulary: for every method the word that it calls and how it shapes
its arguments. -/

namespace Parlance.Html

/-- How one argument of a word is made from the arguments of a method. -/
inductive Shape where
  /-- The argument as it is. -/
  | value (index : Nat)
  /-- Its text. -/
  | text (index : Nat)
  /-- Its truth value. -/
  | flag (index : Nat)
  /-- The argument if it is a sentence, and null otherwise. -/
  | phrase (index : Nat)
  /-- All arguments from an index on. -/
  | rest (start : Nat)
  /-- All arguments from an index on, in one list. -/
  | packed (start : Nat)

structure Method where
  name : String
  word : String
  shapes : List Shape

/-- The methods that hand their arguments over as children. -/
def childMethods : List String :=
  ["body", "div", "h1", "h2", "h3", "h4", "h5", "section", "span", "button", "main", "article", "hr",
    "header", "footer", "label", "ul", "li", "p", "small", "b", "strong", "i", "u", "em", "table", "tr", "td",
    "th", "thead", "tbody", "form", "br", "nav", "aside", "pre", "code", "select", "textarea"]

/-- The methods that take a handler and are named for the event. -/
def eventMethods : List String :=
  ["click", "dblclick", "blur", "focus", "submit", "change", "keyup", "keydown", "keypress", "mouseover",
    "mousedown", "mouseup", "mouseout"]

def methods : List Method :=
  childMethods.map (fun tag => ⟨tag, tag, [.rest 0]⟩) ++
  eventMethods.map (fun event => ⟨event, event, [.value 0]⟩) ++
  [⟨"tag", "tag", [.text 0, .packed 1]⟩,
    ⟨"attr", "attr", [.text 0, .value 1]⟩,
    ⟨"prop", "prop", [.text 0, .value 1]⟩,
    ⟨"data", "data", [.text 0, .value 1]⟩,
    ⟨"style", "style", [.text 0, .value 1]⟩,
    ⟨"id", "id", [.value 0]⟩,
    ⟨"class", "class", [.value 0]⟩,
    ⟨"class_if", "class", [.value 0, .flag 1]⟩,
    ⟨"classes", "classes", [.value 0]⟩,
    ⟨"text", "text", [.value 0]⟩,
    ⟨"if_", "if", [.value 0, .phrase 1, .phrase 2]⟩,
    ⟨"if_args", "if", [.value 0, .value 1, .value 2]⟩,
    ⟨"each", "each", [.value 0, .value 1]⟩,
    ⟨"html", "html", [.value 0]⟩,
    ⟨"component", "component", [.value 0, .value 1]⟩,
    ⟨"ref_", "ref", [.text 0]⟩,
    ⟨"on", "on", [.text 0, .value 1]⟩,
    ⟨"on_with", "on", [.text 0, .value 1, .rest 2]⟩,
    ⟨"execute", "execute", [.value 0, .rest 1]⟩,
    ⟨"on_dom", "onDom", [.value 0, .rest 1]⟩,
    ⟨"switch_use", "switchUse", [.text 0, .rest 1]⟩,
    ⟨"a", "a", [.value 0, .rest 1]⟩,
    ⟨"img", "img", [.value 0]⟩,
    ⟨"input", "input", [.text 0, .value 1, .phrase 2]⟩,
    ⟨"text_input", "textInput", [.value 0, .phrase 1]⟩,
    ⟨"password_input", "passwordInput", [.value 0, .phrase 1]⟩,
    ⟨"checkbox", "checkbox", [.flag 0, .phrase 1]⟩,
    ⟨"radio", "radio", [.flag 0, .phrase 1]⟩,
    ⟨"option", "option", [.value 0, .value 1, .flag 2]⟩,
    ⟨"link_css", "linkCss", [.value 0]⟩,
    ⟨"script", "script", [.value 0]⟩,
    ⟨"nbsp", "nbsp", []⟩,
    ⟨"visible", "visible", [.flag 0]⟩,
    ⟨"display", "display", [.flag 0]⟩,
    ⟨"disabled", "disabled", [.flag 0]⟩]

def method? (name : String) : Option Method := methods.find? (·.name = name)

variable {ω : Type} (i : Interpreter ω)

/-- The arguments of the word that one shape stands for; a sentence that is handed over is a new one. -/
def Shape.apply (args : List Arg) : Shape → Act ω (List Arg)
  | .value index => pure [argAt args index]
  | .text index => pure [.str (argAt args index).toText]
  | .flag index => pure [.bool (argAt args index).isTruthy]
  | .phrase index =>
      match argAt args index with
      | .sentence _ s => do pure [.sentence (← i.fresh) s]
      | _ => pure [.null]
  | .rest start => pure (args.drop start)
  | .packed start => do pure [.list (← i.fresh) (args.drop start)]

/-- The arguments of the word that a method calls. -/
def Method.argsFor (m : Method) (args : List Arg) : Act ω (List Arg) := do
  let parts ← m.shapes.mapM (Shape.apply i args)
  pure parts.flatten

end Parlance.Html
