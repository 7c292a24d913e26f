import Parlance.Lexicon.Call

/-! Outlines: sentences as indented trees. Every lexem has a line with short forms of its arguments; below
it stand the sentences among its arguments, each under the place of the argument, and then, for a compound
on the first level, its development under an arrow. Developments are shown to a given depth, and the
sentences in arguments do not use up any of it. -/

namespace Parlance

/-- A line with the number of steps by which it is indented. -/
structure OutlineLine where
  indent : Nat
  text : String
deriving DecidableEq

namespace OutlineLine

def render (l : OutlineLine) : String := String.join (List.replicate l.indent "  ") ++ l.text ++ "\n"

end OutlineLine

/-- How many characters of a text are shown. -/
def shownCharacters : Nat := 24

/-- An argument in short. -/
def Arg.summary : Arg → String
  | .null => "null"
  | .bool b => if b then "true" else "false"
  | .number n => n.toText
  | .str s =>
      if shownCharacters < s.length then
        Text.quoted (String.ofList (s.toList.take shownCharacters)) ++ "..."
      else Text.quoted s
  | .sentence _ s => s!"<sentence {s.length}>"
  | .list _ items => s!"[{items.length}]"
  | other => s!"<{other.kind}>"

/-- A lexem in short. -/
def Lexem.summary (lexem : Lexem) : String :=
  lexem.qualified ++ "(" ++ ", ".intercalate (lexem.args.map Arg.summary) ++ ")"

variable {ω : Type} (developed : Lexicon → Level → Nat → Lexem → Act ω (List OutlineLine))

mutual

/-- The lines of a sentence, given those of the development of a lexem. -/
def Sentence.outlineWith (indent : Nat) : Sentence → Act ω (List OutlineLine)
  | ⟨lexicon, level, lexems⟩ => outlineLexems lexicon level indent lexems

def outlineLexems (lexicon : Lexicon) (level : Level) (indent : Nat) : List Lexem → Act ω (List OutlineLine)
  | [] => pure []
  | ⟨space, name, args⟩ :: lexems => do
      let nested ← outlineArgs (indent + 1) 0 args
      let development ← developed lexicon level (indent + 1) ⟨space, name, args⟩
      let rest ← outlineLexems lexicon level indent lexems
      pure (⟨indent, Lexem.summary ⟨space, name, args⟩⟩ :: nested ++ development ++ rest)

/-- The sentences among the arguments from a place on. -/
def outlineArgs (indent index : Nat) : List Arg → Act ω (List OutlineLine)
  | [] => pure []
  | .sentence _ s :: args => do
      let lines ← s.outlineWith (indent + 1)
      let rest ← outlineArgs indent (index + 1) args
      pure (⟨indent, s!"#{index}"⟩ :: lines ++ rest)
  | .list _ items :: args => do
      let lines ← outlineItems indent index 0 items
      let rest ← outlineArgs indent (index + 1) args
      pure (lines ++ rest)
  | _ :: args => outlineArgs indent (index + 1) args

/-- The sentences among the items of the list at a place. -/
def outlineItems (indent index item : Nat) : List Arg → Act ω (List OutlineLine)
  | [] => pure []
  | .sentence _ s :: items => do
      let lines ← s.outlineWith (indent + 1)
      let rest ← outlineItems indent index (item + 1) items
      pure (⟨indent, s!"#{index}.{item}"⟩ :: lines ++ rest)
  | _ :: items => outlineItems indent index (item + 1) items

end

/-- The lines of the development of a lexem in a sentence, developed further to a depth. The word is looked
up in the lexicon of the sentence. -/
def outlineDevelopment (i : Interpreter ω) :
    Nat → Lexicon → Level → Nat → Lexem → Act ω (List OutlineLine)
  | 0, _, _, _, _ => pure []
  | depth + 1, lexicon, level, indent, lexem => do
      if level = .firstLevel && lexicon.develops lexem.name then
        match ← (lexicon.develop i lexem).result with
        | .ok s => do
            let lines ← s.outlineWith (outlineDevelopment i depth) (indent + 1)
            pure (⟨indent, "=>"⟩ :: lines)
        | .error e => pure [⟨indent, s!"=> error: {e.message}"⟩]
      else pure []

/-- The outline of a sentence, with developments to a depth. -/
def Sentence.outline (i : Interpreter ω) (depth : Nat) (s : Sentence) : Act ω String := do
  let lines ← s.outlineWith (outlineDevelopment i depth) 1
  let head : OutlineLine := ⟨0, s!"Sentence {s.lexicon.name} ({s.level.name}, {s.length} lexems)"⟩
  pure (String.join ((head :: lines).map OutlineLine.render))

end Parlance
