import Mathlib.Data.List.Forall2
import Parlance.Proofs.Lexicon.Acts
import Parlance.Script.Behaviour
import Parlance.Sentence.Outline

/-! What an outline shows. Its lines form a forest: below the line of a lexem stand the sentences among its arguments,
each under a line with its place, and then its development under an arrow. The forest of a sentence is described by a
relation that follows the sentence, its arguments and the developments of its lexems, and the outline is the text of
the forest, every line indented by two spaces for each line that encloses it. Arguments do not use up any depth and are
part of the lexem, a development may be larger than the lexem but uses up depth; so if every body that is run returns,
the outline comes to an end, whatever the bodies lead to. -/

namespace Parlance

/-- A lexem as an outline comes upon it: in a sentence of a lexicon and a level, with depth left for developments, and
in a world. -/
structure Visit (ω : Type) where
  lexicon : Lexicon
  level : Level
  depth : Nat
  lexem : Lexem
  world : ω

/-- What a line of an outline is there for. -/
inductive Heading (ω : Type) where
  | sentence (s : Sentence)
  | lexem (visit : Visit ω)
  | argument (index : Nat)
  | item (index item : Nat)
  | arrow

def Heading.text {ω : Type} : Heading ω → String
  | .sentence s => s!"Sentence {s.lexicon.name} ({s.level.name}, {s.length} lexems)"
  | .lexem visit => visit.lexem.summary
  | .argument index => s!"#{index}"
  | .item index place => s!"#{index}.{place}"
  | .arrow => "=>"

def Heading.isArrow {ω : Type} : Heading ω → Bool
  | .arrow => true
  | _ => false

/-- Lines in order, each with the lines below that belong to it. -/
inductive Sketch (ω : Type) where
  | nil
  | line (heading : Heading ω) (below rest : Sketch ω)

/-- A line with those that enclose it, the innermost first. -/
structure PlacedLine (ω : Type) where
  enclosing : List (Heading ω)
  heading : Heading ω

namespace PlacedLine

variable {ω : Type}

/-- The text of a line, indented by two spaces for each line that encloses it. -/
def text (line : PlacedLine ω) : String :=
  String.join (List.replicate line.enclosing.length "  ") ++ line.heading.text ++ "\n"

/-- How many arrows a line is nested in. -/
def arrows (line : PlacedLine ω) : Nat := line.enclosing.countP Heading.isArrow

end PlacedLine

namespace Sketch

variable {ω : Type}

def append : Sketch ω → Sketch ω → Sketch ω
  | nil, sketch => sketch
  | line heading below rest, sketch => line heading below (rest.append sketch)

/-- The lines that no other line of the sketch encloses. -/
def headings : Sketch ω → List (Heading ω)
  | nil => []
  | line heading _ rest => heading :: rest.headings

/-- All lines in order, inside of others. -/
def placed (enclosing : List (Heading ω)) : Sketch ω → List (PlacedLine ω)
  | nil => []
  | line heading below rest => ⟨enclosing, heading⟩ :: (below.placed (heading :: enclosing) ++ rest.placed enclosing)

def text (sketch : Sketch ω) : String := String.join ((sketch.placed []).map PlacedLine.text)

/-- The lines as an outline counts their steps of indentation. -/
def lines (indent : Nat) : Sketch ω → List OutlineLine
  | nil => []
  | line heading below rest => ⟨indent, heading.text⟩ :: (below.lines (indent + 1) ++ rest.lines indent)

theorem lines_append (sketch more : Sketch ω) (indent : Nat) :
    (sketch.append more).lines indent = sketch.lines indent ++ more.lines indent := by
  induction sketch with
  | nil => rfl
  | line heading below rest _ ih => simp [append, lines, ih]

theorem placed_append (sketch more : Sketch ω) (enclosing : List (Heading ω)) :
    (sketch.append more).placed enclosing = sketch.placed enclosing ++ more.placed enclosing := by
  induction sketch with
  | nil => rfl
  | line heading below rest _ ih => simp [append, placed, ih]

theorem render_lines (sketch : Sketch ω) (enclosing : List (Heading ω)) :
    (sketch.lines enclosing.length).map OutlineLine.render = (sketch.placed enclosing).map PlacedLine.text := by
  induction sketch generalizing enclosing with
  | nil => rfl
  | line heading below rest hbelow hrest =>
      have hinside := hbelow (heading :: enclosing)
      rw [List.length_cons] at hinside
      simp [lines, placed, hinside, hrest, OutlineLine.render, PlacedLine.text]

end Sketch

/-- The sentences among an argument. -/
def Arg.sentences : Arg → List Sentence
  | .sentence _ s => [s]
  | .list _ items => items.filterMap Arg.asSentence?
  | _ => []

/-- What an outline has to show next: lexems of a sentence, the arguments of a lexem from a place on, the items of a
list from a place on, or the development of a lexem. -/
inductive Part where
  | lexems (lexicon : Lexicon) (level : Level) (lexems : List Lexem)
  | args (index : Nat) (args : List Arg)
  | items (index item : Nat) (items : List Arg)
  | development (lexicon : Lexicon) (level : Level) (lexem : Lexem)

def Sentence.part (s : Sentence) : Part := .lexems s.lexicon s.level s.lexems

variable {ω : Type}

/-- The sketch of a part, with developments to a depth: it begins in one world, and bodies lead on to another. -/
inductive Outlines (i : Interpreter ω) : Nat → Part → ω → Sketch ω → ω → Prop
  | noLexems {d : Nat} {l : Lexicon} {level : Level} {w : ω} : Outlines i d (.lexems l level []) w .nil w
  | lexem {d : Nat} {l : Lexicon} {level : Level} {lexem : Lexem} {lexems : List Lexem} {w w₁ w₂ w₃ : ω}
      {nested development rest : Sketch ω} (hargs : Outlines i d (.args 0 lexem.args) w nested w₁)
      (hdevelopment : Outlines i d (.development l level lexem) w₁ development w₂)
      (hrest : Outlines i d (.lexems l level lexems) w₂ rest w₃) :
      Outlines i d (.lexems l level (lexem :: lexems)) w
        (.line (.lexem ⟨l, level, d, lexem, w₁⟩) (nested.append development) rest) w₃
  | noArgs {d index : Nat} {w : ω} : Outlines i d (.args index []) w .nil w
  | sentenceArg {d index : Nat} {id : Identity} {s : Sentence} {args : List Arg} {w w₁ w₂ : ω} {below rest : Sketch ω}
      (hbelow : Outlines i d s.part w below w₁) (hrest : Outlines i d (.args (index + 1) args) w₁ rest w₂) :
      Outlines i d (.args index (.sentence id s :: args)) w (.line (.argument index) below rest) w₂
  | listArg {d index : Nat} {id : Identity} {items args : List Arg} {w w₁ w₂ : ω} {shown rest : Sketch ω}
      (hitems : Outlines i d (.items index 0 items) w shown w₁)
      (hrest : Outlines i d (.args (index + 1) args) w₁ rest w₂) :
      Outlines i d (.args index (.list id items :: args)) w (shown.append rest) w₂
  | otherArg {d index : Nat} {a : Arg} {args : List Arg} {w w' : ω} {rest : Sketch ω} (hother : a.sentences = [])
      (hrest : Outlines i d (.args (index + 1) args) w rest w') : Outlines i d (.args index (a :: args)) w rest w'
  | noItems {d index item : Nat} {w : ω} : Outlines i d (.items index item []) w .nil w
  | sentenceItem {d index item : Nat} {id : Identity} {s : Sentence} {items : List Arg} {w w₁ w₂ : ω}
      {below rest : Sketch ω} (hbelow : Outlines i d s.part w below w₁)
      (hrest : Outlines i d (.items index (item + 1) items) w₁ rest w₂) :
      Outlines i d (.items index item (.sentence id s :: items)) w (.line (.item index item) below rest) w₂
  | otherItem {d index item : Nat} {a : Arg} {items : List Arg} {w w' : ω} {rest : Sketch ω}
      (hother : a.asSentence? = none) (hrest : Outlines i d (.items index (item + 1) items) w rest w') :
      Outlines i d (.items index item (a :: items)) w rest w'
  | undeveloped {d : Nat} {l : Lexicon} {level : Level} {lexem : Lexem} {w : ω}
      (hnone : d = 0 ∨ (level = .firstLevel && l.develops lexem.name) = false) :
      Outlines i d (.development l level lexem) w .nil w
  | developed {d : Nat} {l : Lexicon} {lexem : Lexem} {s : Sentence} {w w₁ w₂ : ω} {below : Sketch ω}
      (hdevelops : l.develops lexem.name = true) (hdevelop : l.develop i lexem w = .ok s w₁)
      (hbelow : Outlines i d s.part w₁ below w₂) :
      Outlines i (d + 1) (.development l .firstLevel lexem) w (.line .arrow below .nil) w₂

/-- An action that shows a part: what it returns are the lines of a sketch of the part. -/
def Part.ShownBy (part : Part) (i : Interpreter ω) (d indent : Nat) (action : Act ω (List OutlineLine)) : Prop :=
  ∀ ⦃w lines w'⦄, action w = .ok lines w' → ∃ sketch, Outlines i d part w sketch w' ∧ lines = sketch.lines indent

section Shown

set_option linter.unusedSectionVars false

variable {i : Interpreter ω} {d : Nat} {developed : Lexicon → Level → Nat → Lexem → Act ω (List OutlineLine)}

/-- Two parts that are shown one after the other, below a line or beside each other. -/
theorem Part.ShownBy.bind₂ {part first second : Part} {indent m n : Nat} {action rest : Act ω (List OutlineLine)}
    {join : List OutlineLine → List OutlineLine → List OutlineLine} {sketched : Sketch ω → Sketch ω → Sketch ω}
    (hfirst : first.ShownBy i d m action) (hsecond : second.ShownBy i d n rest)
    (hjoin : ∀ a b, join (a.lines m) (b.lines n) = (sketched a b).lines indent)
    (hdepicts : ∀ {w w₁ w₂ a b}, Outlines i d first w a w₁ → Outlines i d second w₁ b w₂ →
      Outlines i d part w (sketched a b) w₂) :
    part.ShownBy i d indent (do
      let lines ← action
      let more ← rest
      pure (join lines more)) := by
  intro w lines w' h
  obtain ⟨above, w₁, haction, h⟩ := Act.bind_eq_ok.mp h
  obtain ⟨more, w₂, hrest, h⟩ := Act.bind_eq_ok.mp h
  obtain ⟨rfl, rfl⟩ := Act.pure_eq_ok.mp h
  obtain ⟨a, ha, rfl⟩ := hfirst haction
  obtain ⟨b, hb, rfl⟩ := hsecond hrest
  exact ⟨sketched a b, hdepicts ha hb, hjoin a b⟩

variable (hdeveloped : ∀ l level indent lexem, (Part.development l level lexem).ShownBy i d indent
  (developed l level indent lexem))
include hdeveloped

mutual

theorem Sentence.outlineWith_shows (s : Sentence) (indent : Nat) :
    s.part.ShownBy i d indent (s.outlineWith developed indent) := by
  match s with
  | ⟨l, level, lexems⟩ =>
      rw [Sentence.outlineWith]
      exact outlineLexems_shows l level indent lexems

theorem outlineLexems_shows (l : Lexicon) (level : Level) (indent : Nat) (lexems : List Lexem) :
    (Part.lexems l level lexems).ShownBy i d indent (outlineLexems developed l level indent lexems) := by
  match lexems with
  | [] =>
      rw [outlineLexems]
      intro w lines w' h
      obtain ⟨rfl, rfl⟩ := Act.pure_eq_ok.mp h
      exact ⟨.nil, .noLexems, rfl⟩
  | ⟨space, name, args⟩ :: lexems =>
      rw [outlineLexems]
      intro w lines w' h
      obtain ⟨nested, w₁, hnested, h⟩ := Act.bind_eq_ok.mp h
      obtain ⟨development, w₂, hdevelopment, h⟩ := Act.bind_eq_ok.mp h
      obtain ⟨rest, w₃, hrest, h⟩ := Act.bind_eq_ok.mp h
      obtain ⟨rfl, rfl⟩ := Act.pure_eq_ok.mp h
      obtain ⟨a, ha, rfl⟩ := outlineArgs_shows (indent + 1) 0 args hnested
      obtain ⟨b, hb, rfl⟩ := hdeveloped _ _ _ _ hdevelopment
      obtain ⟨c, hc, rfl⟩ := outlineLexems_shows l level indent lexems hrest
      exact ⟨_, .lexem ha hb hc, by simp [Sketch.lines, Sketch.lines_append, Heading.text]⟩

theorem outlineArgs_shows (indent index : Nat) (args : List Arg) :
    (Part.args index args).ShownBy i d indent (outlineArgs developed indent index args) := by
  match args with
  | [] =>
      rw [outlineArgs]
      intro w lines w' h
      obtain ⟨rfl, rfl⟩ := Act.pure_eq_ok.mp h
      exact ⟨.nil, .noArgs, rfl⟩
  | .sentence id s :: args =>
      rw [outlineArgs]
      exact .bind₂ (Sentence.outlineWith_shows s (indent + 1)) (outlineArgs_shows indent (index + 1) args)
        (fun _ _ => rfl) Outlines.sentenceArg
  | .list id items :: args =>
      rw [outlineArgs]
      exact .bind₂ (outlineItems_shows indent index 0 items) (outlineArgs_shows indent (index + 1) args)
        (fun _ _ => (Sketch.lines_append _ _ _).symm) Outlines.listArg
  | .null :: args | .bool _ :: args | .number _ :: args | .str _ :: args | .data _ :: args | .render _ :: args
  | .handler _ :: args | .callback _ :: args | .component _ :: args | .hook _ :: args =>
      rw [outlineArgs]
      · intro w lines w' h
        obtain ⟨rest, hrest, heq⟩ := outlineArgs_shows indent (index + 1) args h
        exact ⟨rest, .otherArg rfl hrest, heq⟩
      all_goals simp

theorem outlineItems_shows (indent index item : Nat) (items : List Arg) :
    (Part.items index item items).ShownBy i d indent (outlineItems developed indent index item items) := by
  match items with
  | [] =>
      rw [outlineItems]
      intro w lines w' h
      obtain ⟨rfl, rfl⟩ := Act.pure_eq_ok.mp h
      exact ⟨.nil, .noItems, rfl⟩
  | .sentence id s :: items =>
      rw [outlineItems]
      exact .bind₂ (Sentence.outlineWith_shows s (indent + 1)) (outlineItems_shows indent index (item + 1) items)
        (fun _ _ => rfl) Outlines.sentenceItem
  | .null :: items | .bool _ :: items | .number _ :: items | .str _ :: items | .list _ _ :: items | .data _ :: items
  | .render _ :: items | .handler _ :: items | .callback _ :: items | .component _ :: items | .hook _ :: items =>
      rw [outlineItems]
      · intro w lines w' h
        obtain ⟨rest, hrest, heq⟩ := outlineItems_shows indent index (item + 1) items h
        exact ⟨rest, .otherItem rfl hrest, heq⟩
      all_goals simp

end

end Shown

/-- The development of a lexem breaks off only if the body that is run for it does, or something below. -/
theorem Lexicon.develop_of_develops {i : Interpreter ω} {l : Lexicon} {lexem : Lexem}
    (h : l.develops lexem.name = true) : ∃ owner body, l.resolve lexem.name = some (owner, .compound body) ∧
      l.develop i lexem = .ofAct (i.run body ⟨owner, .firstLevel⟩ (Sentence.empty l .firstLevel) lexem.args) := by
  unfold develops kindOf at h
  rw [decide_eq_true_eq, Option.map_eq_some_iff] at h
  obtain ⟨⟨owner, word⟩, hresolve, hkind⟩ := h
  cases word with
  | compound body => exact ⟨owner, body, hresolve, by simp only [develop, expand, hresolve]⟩
  | _ => cases hkind

theorem outlineDevelopment_shows (i : Interpreter ω) (d : Nat) (l : Lexicon) (level : Level) (indent : Nat)
    (lexem : Lexem) :
    (Part.development l level lexem).ShownBy i d indent (outlineDevelopment i d l level indent lexem) := by
  induction d generalizing l level indent lexem with
  | zero =>
      intro w lines w' h
      obtain ⟨rfl, rfl⟩ := Act.pure_eq_ok.mp h
      exact ⟨.nil, .undeveloped (.inl rfl), rfl⟩
  | succ d ih =>
      intro w lines w' h
      rw [outlineDevelopment] at h
      split at h
      · next hdevelops =>
        simp only [Bool.and_eq_true, decide_eq_true_eq] at hdevelops
        obtain ⟨rfl, hdevelops⟩ := hdevelops
        obtain ⟨outcome, w₁, hresult, h⟩ := Act.bind_eq_ok.mp h
        obtain ⟨owner, body, -, hdevelop⟩ := Lexicon.develop_of_develops (i := i) hdevelops
        unfold Attempt.result at hresult
        cases hran : l.develop i lexem w with
        | ok s w₂ =>
            rw [hran] at hresult
            cases hresult
            obtain ⟨below, w₃, hbelow, h⟩ := Act.bind_eq_ok.mp h
            obtain ⟨rfl, rfl⟩ := Act.pure_eq_ok.mp h
            obtain ⟨sketch, hsketch, rfl⟩ := s.outlineWith_shows ih (indent + 1) hbelow
            exact ⟨_, .developed hdevelops hran hsketch, by simp [Sketch.lines, Heading.text]⟩
        | error halt w₂ =>
            rw [hran] at hresult
            rw [hdevelop] at hran
            unfold Attempt.ofAct at hran
            split at hran <;> cases hran
            cases hresult
      · next hnone =>
        obtain ⟨rfl, rfl⟩ := Act.pure_eq_ok.mp h
        exact ⟨.nil, .undeveloped (.inr (Bool.eq_false_iff.mpr hnone)), rfl⟩

/-- An outline is the text of a sketch below the line of the sentence. -/
theorem Sentence.outline_sketch {i : Interpreter ω} {s : Sentence} {d : Nat} {w w' : ω} {text : String}
    (h : s.outline i d w = .ok text w') :
    ∃ sketch, Outlines i d s.part w sketch w' ∧ text = (Sketch.line (.sentence s) sketch .nil).text := by
  obtain ⟨lines, w₁, hlines, h⟩ := Act.bind_eq_ok.mp h
  obtain ⟨rfl, rfl⟩ := Act.pure_eq_ok.mp h
  obtain ⟨sketch, hsketch, rfl⟩ := s.outlineWith_shows (outlineDevelopment_shows i d) 1 hlines
  refine ⟨sketch, hsketch, ?_⟩
  have hbelow := sketch.render_lines [.sentence s]
  rw [List.length_singleton] at hbelow
  simp [Sketch.text, Sketch.placed, hbelow, OutlineLine.render, PlacedLine.text, Heading.text]

/-- The sentences that an outline may come to from a sentence: those among the arguments, and on the first level the
developments of lexems. -/
inductive Sentence.Meets (i : Interpreter ω) : Sentence → Sentence → Prop
  | self (s : Sentence) : s.Meets i s
  | argument {s t u : Sentence} {lexem : Lexem} {a : Arg} (hlexem : lexem ∈ s.lexems) (ha : a ∈ lexem.args)
      (ht : t ∈ a.sentences) (hrest : t.Meets i u) : s.Meets i u
  | development {s t u : Sentence} {lexem : Lexem} {w w' : ω} (hlevel : s.level = .firstLevel)
      (hlexem : lexem ∈ s.lexems) (hdevelop : s.lexicon.develop i lexem w = .ok t w') (hrest : t.Meets i u) : s.Meets i u

/-- The body of a compound returns a sentence when it is run on the first level with the arguments of a lexem. -/
def Lexicon.Returns (i : Interpreter ω) (l : Lexicon) (lexem : Lexem) : Prop :=
  ∀ owner body, l.resolve lexem.name = some (owner, .compound body) →
    ∀ w, ∃ t w', i.run body ⟨owner, .firstLevel⟩ (Sentence.empty l .firstLevel) lexem.args w = .ok t w'

/-- Every body returns that an outline of the sentence may run. -/
def Sentence.Returning (i : Interpreter ω) (s : Sentence) : Prop :=
  ∀ t, s.Meets i t → t.level = .firstLevel → ∀ lexem ∈ t.lexems, t.lexicon.Returns i lexem

/-- Every body returns that is run to show a part. -/
def Part.Returning (i : Interpreter ω) : Part → Prop
  | .lexems l level those => Sentence.Returning i ⟨l, level, those⟩
  | .args _ those => ∀ a ∈ those, ∀ t ∈ a.sentences, t.Returning i
  | .items _ _ those => ∀ a ∈ those, ∀ t ∈ a.asSentence?, t.Returning i
  | .development l level lexem => level = .firstLevel →
      l.Returns i lexem ∧ ∀ w t w', l.develop i lexem w = .ok t w' → t.Returning i

section Returning

set_option linter.unusedSectionVars false

variable {i : Interpreter ω} {developed : Lexicon → Level → Nat → Lexem → Act ω (List OutlineLine)}

theorem Part.Returning.lexem {l : Lexicon} {level : Level} {lexem : Lexem} {lexems : List Lexem}
    (h : (Part.lexems l level (lexem :: lexems)).Returning i) :
    (Part.args 0 lexem.args).Returning i ∧ (Part.development l level lexem).Returning i ∧
      (Part.lexems l level lexems).Returning i := by
  refine ⟨fun a ha t ht u hu => ?_, ?_, ?_⟩
  · exact h u (.argument List.mem_cons_self ha ht hu)
  · rintro rfl
    refine ⟨h _ (.self _) rfl lexem List.mem_cons_self, fun w t w' hdevelop u hu => ?_⟩
    exact h u (.development rfl List.mem_cons_self hdevelop hu)
  · intro t ht
    cases ht with
    | self => exact fun hlevel other hother => h _ (.self _) hlevel other (List.mem_cons_of_mem _ hother)
    | argument hother ha hu hrest => exact h t (.argument (List.mem_cons_of_mem _ hother) ha hu hrest)
    | development hlevel hother hdevelop hrest =>
        exact h t (.development hlevel (List.mem_cons_of_mem _ hother) hdevelop hrest)

/-- An action returns from every world. -/
def Comes {α : Type} (action : Act ω α) : Prop := ∀ w, ∃ a w', action w = .ok a w'

theorem Comes.pure {α : Type} (a : α) : Comes (pure a : Act ω α) := fun w => ⟨a, w, rfl⟩

theorem Comes.bind {α β : Type} {action : Act ω α} {f : α → Act ω β} (h : Comes action) (hf : ∀ a, Comes (f a)) :
    Comes (action >>= f) := by
  intro w
  obtain ⟨a, w₁, haction⟩ := h w
  obtain ⟨b, w₂, hrest⟩ := hf a w₁
  exact ⟨b, w₂, Act.bind_eq_ok.mpr ⟨a, w₁, haction, hrest⟩⟩

variable (hdeveloped : ∀ l level indent lexem, (Part.development l level lexem).Returning i →
  Comes (developed l level indent lexem))
include hdeveloped

mutual

theorem Sentence.outlineWith_comes (s : Sentence) (indent : Nat) (h : s.Returning i) :
    Comes (s.outlineWith developed indent) := by
  match s with
  | ⟨l, level, lexems⟩ =>
      rw [Sentence.outlineWith]
      exact outlineLexems_comes l level indent lexems h

theorem outlineLexems_comes (l : Lexicon) (level : Level) (indent : Nat) (lexems : List Lexem)
    (h : (Part.lexems l level lexems).Returning i) : Comes (outlineLexems developed l level indent lexems) := by
  match lexems with
  | [] =>
      rw [outlineLexems]
      exact .pure _
  | ⟨space, name, args⟩ :: lexems =>
      rw [outlineLexems]
      obtain ⟨hargs, hdevelopment, hlexems⟩ := h.lexem
      exact (outlineArgs_comes (indent + 1) 0 args hargs).bind fun _ =>
        (hdeveloped _ _ _ _ hdevelopment).bind fun _ =>
        (outlineLexems_comes l level indent lexems hlexems).bind fun _ => .pure _

theorem outlineArgs_comes (indent index : Nat) (args : List Arg) (h : (Part.args index args).Returning i) :
    Comes (outlineArgs developed indent index args) := by
  match args with
  | [] =>
      rw [outlineArgs]
      exact .pure _
  | a :: args =>
      have hlater : Comes (outlineArgs developed indent (index + 1) args) :=
        outlineArgs_comes indent (index + 1) args fun a' ha' => h a' (List.mem_cons_of_mem _ ha')
      have hhere := h a List.mem_cons_self
      match a with
      | .sentence id s =>
          rw [outlineArgs]
          exact (Sentence.outlineWith_comes s (indent + 1) (hhere s (List.mem_singleton.mpr rfl))).bind fun _ =>
            hlater.bind fun _ => .pure _
      | .list id items =>
          rw [outlineArgs]
          have hitems : (Part.items index 0 items).Returning i := fun item hitem t ht =>
            hhere t (List.mem_filterMap.mpr ⟨item, hitem, ht⟩)
          exact (outlineItems_comes indent index 0 items hitems).bind fun _ => hlater.bind fun _ => .pure _
      | .null | .bool _ | .number _ | .str _ | .data _ | .render _ | .handler _ | .callback _ | .component _ | .hook _ =>
          rw [outlineArgs]
          · exact hlater
          all_goals simp

theorem outlineItems_comes (indent index item : Nat) (items : List Arg) (h : (Part.items index item items).Returning i) :
    Comes (outlineItems developed indent index item items) := by
  match items with
  | [] =>
      rw [outlineItems]
      exact .pure _
  | a :: items =>
      have hlater : Comes (outlineItems developed indent index (item + 1) items) :=
        outlineItems_comes indent index (item + 1) items fun a' ha' => h a' (List.mem_cons_of_mem _ ha')
      match a with
      | .sentence id s =>
          rw [outlineItems]
          exact (Sentence.outlineWith_comes s (indent + 1) (h _ List.mem_cons_self s rfl)).bind fun _ =>
            hlater.bind fun _ => .pure _
      | .null | .bool _ | .number _ | .str _ | .list _ _ | .data _ | .render _ | .handler _ | .callback _
      | .component _ | .hook _ =>
          rw [outlineItems]
          · exact hlater
          all_goals simp

end

end Returning

theorem outlineDevelopment_comes {i : Interpreter ω} (d : Nat) (l : Lexicon) (level : Level) (indent : Nat)
    (lexem : Lexem) (h : (Part.development l level lexem).Returning i) :
    Comes (outlineDevelopment i d l level indent lexem) := by
  induction d generalizing l level indent lexem with
  | zero => exact .pure _
  | succ d ih =>
      rw [outlineDevelopment]
      split
      · next hdevelops =>
        simp only [Bool.and_eq_true, decide_eq_true_eq] at hdevelops
        obtain ⟨hreturns, hbelow⟩ := h hdevelops.1
        obtain ⟨owner, body, hresolve, hdevelop⟩ := Lexicon.develop_of_develops (i := i) hdevelops.2
        intro w
        obtain ⟨s, w₁, hrun⟩ := hreturns owner body hresolve w
        have hran : l.develop i lexem w = .ok s w₁ := by
          rw [hdevelop]
          unfold Attempt.ofAct
          rw [hrun]
        obtain ⟨lines, w₂, hlines⟩ := s.outlineWith_comes ih (indent + 1) (hbelow w s w₁ hran) w₁
        refine ⟨_, w₂, Act.bind_eq_ok.mpr ⟨.ok s, w₁, ?_, Act.bind_eq_ok.mpr ⟨lines, w₂, hlines, rfl⟩⟩⟩
        unfold Attempt.result
        rw [hran]
      · exact .pure _

section Nesting

variable {i : Interpreter ω} {d : Nat} {part : Part} {w w' : ω} {sketch : Sketch ω}

/-- No line of a part is nested in more arrows than there was depth. -/
theorem Outlines.arrows_le (h : Outlines i d part w sketch w') (enclosing : List (Heading ω)) :
    ∀ line ∈ sketch.placed enclosing, line.arrows ≤ enclosing.countP Heading.isArrow + d := by
  have hhere : ∀ (d : Nat) (enclosing : List (Heading ω)) (heading : Heading ω),
      PlacedLine.arrows ⟨enclosing, heading⟩ ≤ enclosing.countP Heading.isArrow + d :=
    fun d enclosing _ => Nat.le_add_right _ d
  have hwithin : ∀ (enclosing : List (Heading ω)) (heading : Heading ω), heading.isArrow = false →
      (heading :: enclosing).countP Heading.isArrow = enclosing.countP Heading.isArrow := by
    intro enclosing heading hheading
    rw [List.countP_cons_of_neg (by simp [hheading])]
  induction h generalizing enclosing with
  | noLexems | noArgs | noItems | undeveloped => simp [Sketch.placed]
  | otherArg _ _ ih | otherItem _ _ ih => exact ih enclosing
  | @lexem d l level lexem lexems w w₁ w₂ w₃ _ _ _ _ _ _ hargs hdevelopment hrest =>
      intro line hline
      simp only [Sketch.placed, Sketch.placed_append, List.mem_cons, List.mem_append] at hline
      have hinside := hwithin enclosing (.lexem ⟨l, level, d, lexem, w₁⟩) rfl
      rcases hline with rfl | (hline | hline) | hline
      · exact hhere d enclosing _
      · exact hinside ▸ hargs _ line hline
      · exact hinside ▸ hdevelopment _ line hline
      · exact hrest enclosing line hline
  | sentenceArg _ _ hbelow hrest | sentenceItem _ _ hbelow hrest =>
      intro line hline
      simp only [Sketch.placed, List.mem_cons, List.mem_append] at hline
      rcases hline with rfl | hline | hline
      · exact hhere _ enclosing _
      · have hbound := hbelow _ line hline
        rwa [hwithin enclosing _ (by rfl)] at hbound
      · exact hrest enclosing line hline
  | listArg _ _ hitems hrest =>
      intro line hline
      rcases List.mem_append.mp (Sketch.placed_append _ _ enclosing ▸ hline) with hline | hline
      · exact hitems enclosing line hline
      · exact hrest enclosing line hline
  | developed _ _ _ hbelow =>
      intro line hline
      simp only [Sketch.placed, List.append_nil, List.mem_cons] at hline
      rcases hline with rfl | hline
      · exact hhere _ enclosing _
      -- the arrow itself uses up one step of the depth
      · have hbound := hbelow _ line hline
        rw [List.countP_cons_of_pos rfl] at hbound
        omega

/-- Without depth no body is run. -/
theorem Outlines.world_eq (h : Outlines i d part w sketch w') (hd : d = 0) : w' = w := by
  induction h with
  | noLexems | noArgs | noItems | undeveloped => rfl
  | otherArg _ _ ih | otherItem _ _ ih => exact ih hd
  | lexem _ _ _ hargs hdevelopment hrest => rw [hrest hd, hdevelopment hd, hargs hd]
  | sentenceArg _ _ hfirst hrest | listArg _ _ hfirst hrest | sentenceItem _ _ hfirst hrest => rw [hrest hd, hfirst hd]
  | developed => cases hd

/-- The lexems of a sentence have the outermost lines of its sketch. -/
theorem Outlines.headings {l : Lexicon} {level : Level} {lexems : List Lexem}
    (h : Outlines i d (.lexems l level lexems) w sketch w') :
    List.Forall₂ (fun lexem heading => ∃ w₁, heading = .lexem ⟨l, level, d, lexem, w₁⟩) lexems sketch.headings := by
  induction lexems generalizing w sketch with
  | nil =>
      cases h
      exact .nil
  | cons lexem lexems ih =>
      cases h with
      | lexem _ _ hrest => exact .cons ⟨_, rfl⟩ (ih hrest)

theorem Sketch.length_le_of_mem_placed {enclosing : List (Heading ω)} {line : PlacedLine ω}
    (h : line ∈ sketch.placed enclosing) : enclosing.length ≤ line.enclosing.length := by
  induction sketch generalizing enclosing with
  | nil => cases h
  | line heading below rest hbelow hrest =>
      simp only [placed, List.mem_cons, List.mem_append] at h
      rcases h with rfl | h | h
      · exact Nat.le_refl _
      · exact Nat.le_of_succ_le (hbelow h)
      · exact hrest h

/-- The lines that are indented as far as the first one are the outermost lines. -/
theorem Sketch.headings_eq (sketch : Sketch ω) (enclosing : List (Heading ω)) :
    ((sketch.placed enclosing).filter fun line => line.enclosing.length = enclosing.length).map PlacedLine.heading =
      sketch.headings := by
  induction sketch generalizing enclosing with
  | nil => rfl
  | line heading below rest _ hrest =>
      have hdeeper : (below.placed (heading :: enclosing)).filter
          (fun line => line.enclosing.length = enclosing.length) = [] := by
        rw [List.filter_eq_nil_iff]
        intro line hline
        have hlength := length_le_of_mem_placed hline
        rw [List.length_cons] at hlength
        simp only [decide_eq_true_eq]
        omega
      simp [placed, headings, hdeeper, hrest]

end Nesting

namespace Sentence

variable {i : Interpreter ω} {s : Sentence}

theorem outline_comes (h : s.Returning i) (d : Nat) : Comes (s.outline i d) :=
  (s.outlineWith_comes (outlineDevelopment_comes d) 1 h).bind fun _ => .pure _

/-- If the bodies return that it runs, an outline comes to an end, and it nests: it is the text of a sketch of the
sentence in which every line is indented by two spaces for each line that encloses it. The lexems of the sentence are
indented alike, whatever stands below them, and no line is nested in more arrows than the outline has depth. Without
depth the outline is the same for all interpreters, and runs nothing. -/
theorem outline_nests (i : Interpreter ω) (s : Sentence) (w : ω) :
    (s.Returning i → ∀ d, ∃ sketch w', Outlines i d s.part w sketch w' ∧
      s.outline i d w = .ok (Sketch.line (.sentence s) sketch .nil).text w' ∧
      List.Forall₂ (fun lexem heading => ∃ w₁, heading = .lexem ⟨s.lexicon, s.level, d, lexem, w₁⟩) s.lexems
        (((sketch.placed [.sentence s]).filter fun line => line.enclosing.length = 1).map PlacedLine.heading) ∧
      ∀ line ∈ sketch.placed [.sentence s], line.arrows ≤ d) ∧
    ∃ text, ∀ j : Interpreter ω, s.outline j 0 w = .ok text w := by
  constructor
  · intro h d
    obtain ⟨text, w', houtline⟩ := outline_comes h d w
    obtain ⟨sketch, hsketch, rfl⟩ := outline_sketch houtline
    refine ⟨sketch, w', hsketch, houtline, ?_, fun line hline => ?_⟩
    · exact sketch.headings_eq [.sentence s] ▸ hsketch.headings
    · have hbound := hsketch.arrows_le _ line hline
      rwa [List.countP_singleton, if_neg (by simp [Heading.isArrow]), Nat.zero_add] at hbound
  · -- an interpreter whose bodies do nothing shows what all others show
    have hidle : s.Returning ⟨i.fresh, fun _ _ s _ => pure s⟩ := fun _ _ _ _ _ _ _ _ w => ⟨_, w, rfl⟩
    obtain ⟨text, w', houtline⟩ := outline_comes hidle 0 w
    obtain ⟨sketch, hsketch, -⟩ := outline_sketch houtline
    obtain rfl := hsketch.world_eq rfl
    exact ⟨text, fun j => houtline⟩

end Sentence

/-- Two words that develop into each other, and one of them into itself as well. -/
def ring : Lexicon :=
  ⟨"ring", none, [("ping", .compound ⟨none, [.word "pong" [.arg 0]]⟩),
    ("pong", .compound ⟨none, [.word "ping" [], .word "pong" []]⟩)]⟩

/-- A word about another. -/
def rung : Sentence := ⟨ring, .firstLevel, [⟨"ring", "ping", [.sentence ⟨0⟩ ⟨ring, .firstLevel, [⟨"ring", "pong", []⟩]⟩]⟩]⟩

theorem ring_develop (ctx : Context) (space : String) (args : List Arg) (w : World) :
    ring.develop (Script.interpreter ctx) ⟨space, "ping", args⟩ w =
        .ok ⟨ring, .firstLevel, [⟨"ring", "pong", [argAt args 0]⟩]⟩ w ∧
      ring.develop (Script.interpreter ctx) ⟨space, "pong", args⟩ w =
        .ok ⟨ring, .firstLevel, [⟨"ring", "ping", []⟩, ⟨"ring", "pong", []⟩]⟩ w :=
  ⟨rfl, rfl⟩

/-- Sentences of the two words, also in the arguments. -/
inductive Ringing : Sentence → Prop
  | mk {lexems : List Lexem} (hnames : ∀ lexem ∈ lexems, lexem.name = "ping" ∨ lexem.name = "pong")
      (hargs : ∀ lexem ∈ lexems, ∀ a ∈ lexem.args, ∀ t ∈ a.sentences, Ringing t) : Ringing ⟨ring, .firstLevel, lexems⟩

theorem Ringing.meets {ctx : Context} {s t : Sentence} (h : s.Meets (Script.interpreter ctx) t) (hs : Ringing s) :
    Ringing t := by
  induction h with
  | self => exact hs
  | argument hlexem ha ht _ ih =>
      obtain ⟨-, hargs⟩ := hs
      exact ih (hargs _ hlexem _ ha _ ht)
  | @development s t u lexem w w' hlevel hlexem hdevelop _ ih =>
      obtain ⟨hnames, hargs⟩ := hs
      refine ih ?_
      obtain ⟨space, name, args⟩ := lexem
      rcases hnames _ hlexem with rfl | rfl
      · cases (ring_develop ctx space args w).1.symm.trans hdevelop
        refine .mk (fun lexem h => .inr (List.mem_singleton.mp h ▸ rfl)) fun lexem h a ha t ht => ?_
        cases List.mem_singleton.mp h
        obtain rfl := List.mem_singleton.mp ha
        -- the argument that is handed on is one of the lexem, or null
        cases args with
        | nil => cases ht
        | cons first _ => exact hargs _ hlexem first List.mem_cons_self t ht
      · cases (ring_develop ctx space args w).2.symm.trans hdevelop
        refine .mk (by simp) fun lexem h a ha => ?_
        simp only [List.mem_cons, List.not_mem_nil, or_false] at h
        rcases h with rfl | rfl <;> cases ha

theorem rung_returning (ctx : Context) : rung.Returning (Script.interpreter ctx) := by
  have hinner : Ringing ⟨ring, .firstLevel, [⟨"ring", "pong", []⟩]⟩ :=
    .mk (by simp) fun lexem h a ha => by cases List.mem_singleton.mp h; cases ha
  have hrung : Ringing rung := by
    refine .mk (by simp) fun lexem h a ha t ht => ?_
    cases List.mem_singleton.mp h
    cases List.mem_singleton.mp ha
    cases List.mem_singleton.mp ht
    exact hinner
  intro t ht _ lexem hlexem owner body hresolve w
  obtain ⟨hnames, -⟩ := hrung.meets ht
  obtain ⟨space, name, args⟩ := lexem
  rcases hnames _ hlexem with rfl | rfl <;> cases hresolve <;> exact ⟨_, _, rfl⟩

/-- The outline of the words stops at the depth, although they could be developed for ever. -/
theorem outline_nests_ring : ∃ sketch w,
    Outlines (Script.interpreter ⟨Registry.empty, [], []⟩) 1 rung.part World.new sketch w ∧
      rung.outline (Script.interpreter ⟨Registry.empty, [], []⟩) 1 World.new =
        .ok (Sketch.line (.sentence rung) sketch .nil).text w ∧
      (Sketch.line (.sentence rung) sketch .nil).text = String.join
        ["Sentence ring (first-level, 1 lexems)\n", "  ring:ping(<sentence 1>)\n", "    #0\n", "      ring:pong()\n",
          "        =>\n", "          ring:ping()\n", "          ring:pong()\n", "    =>\n",
          "      ring:pong(<sentence 1>)\n", "        #0\n", "          ring:pong()\n"] ∧
      ∀ line ∈ sketch.placed [.sentence rung], line.arrows ≤ 1 := by
  let shown : Option String := match rung.outline (Script.interpreter ⟨Registry.empty, [], []⟩) 1 World.new with
    | .ok text _ => some text
    | .error .. => none
  have hshown : shown = some (String.join
        ["Sentence ring (first-level, 1 lexems)\n", "  ring:ping(<sentence 1>)\n", "    #0\n", "      ring:pong()\n",
          "        =>\n", "          ring:ping()\n", "          ring:pong()\n", "    =>\n",
          "      ring:pong(<sentence 1>)\n", "        #0\n", "          ring:pong()\n"]) := by
    decide +kernel
  obtain ⟨sketch, w, hsketch, houtline, -, harrows⟩ :=
    (Sentence.outline_nests (Script.interpreter ⟨Registry.empty, [], []⟩) rung World.new).1 (rung_returning _) 1
  refine ⟨sketch, w, hsketch, houtline, ?_, harrows⟩
  simp only [shown, houtline] at hshown
  exact Option.some.inj hshown

end Parlance
