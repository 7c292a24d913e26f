import Parlance.Proofs.Engine.Growth

/-! Sentences that are built again. Everything in a rebuild has a reference of its own except what the program
holds on to: handlers, callbacks, hooks, factories and records. Scalars are equal, nested lists and sentences have
the same structure, and which render functions count as rebuilt is left to the world. What an instruction reads
directly has to be a scalar or the same reference, also where the engine itself makes the lexem. -/

namespace Parlance

variable {ω : Type}

/-- The arguments that an instruction reads directly. -/
def Instruction.reads : Instruction → List Nat
  | .text | .html | .id | .switchUse => [0]
  | .attr | .data | .style | .component => [1]
  | _ => []

namespace Engine

/-- The lexem that a reference makes of arguments. An alias runs at once and makes none. -/
def referred (e : Engine) (reference : String) (args : List Arg) : List Lexem :=
  match Sentence.splitReference reference with
  | none => []
  | some (space, name) =>
      match (e.targets.get? space).bind (·.resolve name) with
      | none | some (_, .alias _) => []
      | some (owner, _) => [⟨owner.name, name, args⟩]

/-- The text that a child of a tag becomes, unless it is a sentence. -/
def textOf (tag : Lexem) (child : Arg) : List Lexem :=
  match child.asSentence? with
  | some _ => []
  | none => [⟨tag.space, "text", [child]⟩]

/-- The lexems that the engine makes of the arguments of a lexem. -/
def made (e : Engine) (lexem : Lexem) : List Lexem :=
  match e.instruction? lexem with
  | some .tag => lexem.children.flatMap (textOf lexem)
  | some .switchUse =>
      match lexem.arg 0 with
      | .str reference => e.referred reference (lexem.arg 1).items
      | _ => []
  | _ => []

variable (e : Engine) (functions : Identity → Identity → Prop)

mutual

/-- An argument and the one that it is a rebuild of, given which render functions are rebuilds. -/
inductive RebuiltArg : Arg → Arg → Prop
  | null : RebuiltArg .null .null
  | bool {value : Bool} : RebuiltArg (.bool value) (.bool value)
  | number {n n' : Number} (hequals : n'.equals n = true) : RebuiltArg (.number n') (.number n)
  | str {value : String} : RebuiltArg (.str value) (.str value)
  | sentence {i i' : Identity} {s s' : Sentence} (hlexicon : s'.lexicon = s.lexicon) (hlevel : s'.level = s.level)
      (hlexems : List.Forall₂ RebuiltLexem s'.lexems s.lexems) : RebuiltArg (.sentence i' s') (.sentence i s)
  | list {i i' : Identity} {items items' : List Arg} (hitems : List.Forall₂ RebuiltArg items' items) :
      RebuiltArg (.list i' items') (.list i items)
  | data {i : Identity} : RebuiltArg (.data i) (.data i)
  | render {f f' : Identity} (hfunctions : functions f' f) : RebuiltArg (.render f') (.render f)
  | handler {i : Identity} : RebuiltArg (.handler i) (.handler i)
  | callback {i : Identity} : RebuiltArg (.callback i) (.callback i)
  | component {f : Factory} : RebuiltArg (.component f) (.component f)
  | hook {i : Identity} : RebuiltArg (.hook i) (.hook i)

/-- A lexem and the one that it is a rebuild of. -/
inductive RebuiltLexem : Lexem → Lexem → Prop
  | intro {l l' : Lexem} (hspace : l'.space = l.space) (hname : l'.name = l.name)
      (hargs : List.Forall₂ RebuiltArg l'.args l.args)
      (hreads : ∀ i, e.instruction? l = some i → ∀ n ∈ i.reads, (l'.arg n).same (l.arg n) = true)
      (hmade : List.Forall₂ RebuiltLexem (e.made l') (e.made l)) : RebuiltLexem l' l

end

variable {e functions} {functions' : Identity → Identity → Prop}

/-- A rebuild stays one when more functions count as rebuilt. -/
theorem RebuiltArg.mono (hmono : ∀ f' f, functions f' f → functions' f' f) {a a' : Arg}
    (h : RebuiltArg e functions a' a) : RebuiltArg e functions' a' a :=
  @RebuiltArg.rec e functions (fun a' a _ => RebuiltArg e functions' a' a)
    (fun l' l _ => RebuiltLexem e functions' l' l)
    (fun ls' ls _ => List.Forall₂ (RebuiltLexem e functions') ls' ls)
    (fun as' as _ => List.Forall₂ (RebuiltArg e functions') as' as)
    .null .bool (fun h => .number h) .str (fun hlexicon hlevel _ ih => .sentence hlexicon hlevel ih)
    (fun _ ih => .list ih) .data (fun h => .render (hmono _ _ h)) .handler .callback .component .hook
    (fun hspace hname _ hreads _ ihargs ihmade => .intro hspace hname ihargs hreads ihmade)
    .nil (fun _ _ ih ihs => .cons ih ihs) .nil (fun _ _ ih ihs => .cons ih ihs) a' a h

theorem RebuiltLexem.mono (hmono : ∀ f' f, functions f' f → functions' f' f) {l l' : Lexem}
    (h : RebuiltLexem e functions l' l) : RebuiltLexem e functions' l' l := by
  have hsentence : RebuiltArg e functions (.sentence default ⟨Lexicon.new "" none, .firstLevel, [l']⟩)
      (.sentence default ⟨Lexicon.new "" none, .firstLevel, [l]⟩) := .sentence rfl rfl (.cons h .nil)
  cases hsentence.mono hmono with
  | sentence _ _ hlexems =>
      cases hlexems with
      | cons head _ => exact head

namespace RebuiltLexem

variable {l l' : Lexem}

theorem space (h : RebuiltLexem e functions l' l) : l'.space = l.space := by cases h; assumption

theorem name (h : RebuiltLexem e functions l' l) : l'.name = l.name := by cases h; assumption

theorem args (h : RebuiltLexem e functions l' l) : List.Forall₂ (RebuiltArg e functions) l'.args l.args := by
  cases h; assumption

theorem reads (h : RebuiltLexem e functions l' l) {i : Instruction} (hword : e.instruction? l = some i) :
    ∀ n ∈ i.reads, (l'.arg n).same (l.arg n) = true := by
  cases h with
  | intro _ _ _ hreads _ => exact hreads i hword

theorem made (h : RebuiltLexem e functions l' l) :
    List.Forall₂ (RebuiltLexem e functions) (e.made l') (e.made l) := by cases h; assumption

theorem alike (h : RebuiltLexem e functions l' l) : l'.Alike (RebuiltArg e functions) l := ⟨h.space, h.name, h.args⟩

theorem instruction_eq (h : RebuiltLexem e functions l' l) : e.instruction? l' = e.instruction? l :=
  instruction_congr h.space h.name

end RebuiltLexem

/-- A rebuild of a lexem with a known instruction. -/
theorem RebuiltLexem.of_instruction {space name : String} {args args' : List Arg} {i : Instruction}
    (hword : e.instruction? ⟨space, name, args⟩ = some i) (hargs : List.Forall₂ (RebuiltArg e functions) args' args)
    (hreads : ∀ n ∈ i.reads, (argAt args' n).same (argAt args n) = true)
    (hmade : List.Forall₂ (RebuiltLexem e functions) (e.made ⟨space, name, args'⟩) (e.made ⟨space, name, args⟩)) :
    RebuiltLexem e functions ⟨space, name, args'⟩ ⟨space, name, args⟩ := by
  refine .intro rfl rfl hargs (fun j hj => ?_) hmade
  rw [hword] at hj
  cases hj
  exact hreads

/-- Rebuilds have the same form. -/
theorem rebuiltArg_similarity : Similarity (RebuiltArg e functions) := by
  refine ⟨.null, fun h => ?_⟩
  cases h with
  | null => exact .null
  | bool => exact .bool
  | number hequals => exact .number hequals
  | str => exact .str
  | sentence _ _ hlexems => exact .sentence (hlexems.imp fun _ _ h => ⟨h.space, h.name, h.args⟩)
  | list hitems => exact .list hitems
  | data => exact .data
  | render => exact .render
  | handler => exact .handler
  | callback => exact .callback
  | component => exact .component
  | hook => exact .hook

end Engine

/-- Calls, given by what they take, the worlds before and after, and what they give, that can be made once more
with what is a rebuild of the former arguments. -/
structure Repeats {ι α : Type} (later : ω → ω → Prop) (rebuilt : ω → ι → ι → Prop) (agree : ω → α → α → Prop)
    (call : ι → ω → α → ω → Prop) : Prop where
  goesOn : ∀ {i w x w'}, call i w x w' → later w w'
  again : ∀ {i w x w' j w₁}, call i w x w' → later w' w₁ → rebuilt w₁ j i →
    ∃ x' w₂, call j w₁ x' w₂ ∧ later w₁ w₂ ∧ agree w₂ x' x

/-- The property that a call sets or takes away, if it is one of those calls. -/
def Mutation.property? : Mutation → Option (NodeId × String)
  | setProperty node name _ => some (node, name)
  | removeProperty node name => some (node, name)
  | _ => none

/-- A host has received calls: they are recorded, no node goes, and properties change only by those that set
them. -/
structure Host.Received (h : Host) (calls : List Mutation) (h' : Host) : Prop where
  log : h'.mutations.toList = h.mutations.toList ++ calls
  count : h.count ≤ h'.count
  property : ∀ n name, (n, name) ∉ calls.filterMap Mutation.property? → h'.property? n name = h.property? n name

/-- A behaviour under which sentences can be built again. Worlds go on, and in the course of that more render
functions become rebuilds of one another. What rebuilds are given to a body or a render function makes it give a
rebuild of what it gave before, and hooks that are given rebuilds leave the host as it is. -/
structure Rebuilding (b : Behaviour ω) (e : Engine) where
  later : ω → ω → Prop
  functions : ω → Identity → Identity → Prop
  refl : ∀ w, later w w
  trans : ∀ {w w' w''}, later w w' → later w' w'' → later w w''
  mono : ∀ {w w' f' f}, later w w' → functions w f' f → functions w' f' f
  run : ∀ (body : Body) (init : Initializer) (lexicon : Lexicon) (level : Level),
    Repeats later (fun w => List.Forall₂ (e.RebuiltArg (functions w)))
      (fun w s' s => List.Forall₂ (e.RebuiltLexem (functions w)) s'.lexems s.lexems)
      fun args w s w' => b.run body init (Sentence.empty lexicon level) args w = .ok s w'
  render : ∀ index : Nat,
    Repeats later (fun w f' f => functions w f'.1 f.1 ∧ e.RebuiltArg (functions w) f'.2 f.2)
      (fun w s' s => List.Forall₂ (e.RebuiltLexem (functions w)) s'.lexems s.lexems)
      fun (f : Identity × Arg) w s w' => b.render f.1 f.2 index w = .ok s w'
  callback : ∀ callback : Identity,
    Repeats later (fun w => List.Forall₂ (e.RebuiltArg (functions w))) (fun _ (_ _ : Unit) => True)
      fun args w _ w' => b.callback callback args w = .ok () w'
  hookRender : ∀ {hook node args h w h' w'}, b.hookRender hook node args h w = .ok h' w' →
    later w w' ∧ ∃ calls, h.Received calls h'
  hookDiff : ∀ {hook node args h w h' w' args' w₁} (h₁ : Host), b.hookRender hook node args h w = .ok h' w' →
    later w' w₁ → List.Forall₂ (e.RebuiltArg (functions w₁)) args' args →
    ∃ w₂, b.hookDiff hook node args' args h₁ w₁ = .ok h₁ w₂ ∧ later w₁ w₂
  create : ∀ {factory id props w w'}, b.create factory id props w = .ok () w' → later w w'
  view : ∀ {id w s w'}, b.view id w = .ok s w' → later w w'
  lifecycle : ∀ {id event w w'}, b.lifecycle id event w = .ok () w' → later w w'

namespace Rebuilding

variable {b : Behaviour ω} {e : Engine} (R : Rebuilding b e)

/-- An argument again, with those that a world lets count as rebuilds. -/
def ArgAgain (w : ω) : Arg → Arg → Prop := e.RebuiltArg (R.functions w)

/-- A lexem again. -/
def LexemAgain (w : ω) : Lexem → Lexem → Prop := e.RebuiltLexem (R.functions w)

/-- A phrase again. -/
def PhraseAgain (w : ω) (p' p : Phrase) : Prop := List.Forall₂ (R.LexemAgain w) p'.sentence.lexems p.sentence.lexems

variable {R} {w w' w₁ : ω} {l l' : Lexem}

theorem similarity : Similarity (R.ArgAgain w) := Engine.rebuiltArg_similarity

theorem argAgain_mono (h : R.later w w') {a a' : Arg} (ha : R.ArgAgain w a' a) : R.ArgAgain w' a' a :=
  ha.mono fun _ _ => R.mono h

theorem lexemAgain_mono (h : R.later w w') (hl : R.LexemAgain w l' l) : R.LexemAgain w' l' l :=
  hl.mono fun _ _ => R.mono h

theorem phraseAgain_mono (h : R.later w w') {p p' : Phrase} (hp : R.PhraseAgain w p' p) : R.PhraseAgain w' p' p :=
  hp.imp fun _ _ => lexemAgain_mono h

theorem alike (h : R.LexemAgain w l' l) : l'.Alike (R.ArgAgain w) l := Engine.RebuiltLexem.alike h

theorem arg (h : R.LexemAgain w l' l) (index : Nat) : R.ArgAgain w (l'.arg index) (l.arg index) :=
  similarity.conformity.arg (alike h) index

/-- What an argument that is a sentence is a rebuild of. -/
theorem phraseAgain_of_sentence {i : Identity} {s : Sentence} {a : Arg} (h : R.ArgAgain w a (.sentence i s)) :
    ∃ i' s', a = .sentence i' s' ∧ R.PhraseAgain w ⟨some i', s'⟩ ⟨some i, s⟩ := by
  cases h with
  | sentence _ _ hlexems => exact ⟨_, _, rfl, hlexems⟩

/-- A compound is developed again. -/
theorem develops_again {s : Sentence} (h : e.Develops b l w s w') (hlater : R.later w' w₁)
    (hl : R.LexemAgain w₁ l' l) :
    ∃ s' w₂, e.Develops b l' w₁ s' w₂ ∧ R.later w₁ w₂ ∧ R.PhraseAgain w₂ (.new s') (.new s) := by
  obtain ⟨lexicon, owner, body, hget, hresolve, hrun⟩ := h
  obtain ⟨s', w₂, hrun', hw₂, hs'⟩ := (R.run _ _ _ _).again hrun hlater hl.args
  exact ⟨s', w₂, ⟨lexicon, owner, body, hl.space ▸ hget, by rw [hl.name]; exact hresolve, hrun'⟩, hw₂, hs'⟩

theorem develops_later {s : Sentence} (h : e.Develops b l w s w') : R.later w w' := by
  obtain ⟨_, _, _, -, -, hrun⟩ := h
  exact (R.run _ _ _ _).goesOn hrun

/-- An `if` chooses the same again. -/
theorem chooses_again {chosen : Option Phrase} (h : Engine.Chooses b l w chosen w') (hlater : R.later w' w₁)
    (hl : R.LexemAgain w₁ l' l) :
    ∃ chosen' w₂, Engine.Chooses b l' w₁ chosen' w₂ ∧ R.later w₁ w₂ ∧
      List.Forall₂ (R.PhraseAgain w₂) chosen'.toList chosen.toList := by
  have hchosen : R.ArgAgain w₁ l'.chosenArg l.chosenArg := by
    rw [Lexem.chosenArg, Lexem.chosenArg, (similarity.resembles (arg hl 0)).conforms.isTruthy_eq]
    exact arg hl _
  generalize harg' : l'.chosenArg = a at hchosen
  cases h with
  | nothing harg =>
      rw [harg] at hchosen
      cases hchosen
      exact ⟨none, w₁, .nothing harg', R.refl w₁, .nil⟩
  | sentence harg =>
      rw [harg] at hchosen
      obtain ⟨i', s', rfl, hs'⟩ := phraseAgain_of_sentence hchosen
      exact ⟨_, w₁, .sentence harg', R.refl w₁, .cons hs' .nil⟩
  | @rendered f _ _ harg hrender =>
      rw [harg] at hchosen
      cases hchosen with
      | @render _ f' hfunctions =>
      obtain ⟨s', w₂, hrender', hw₂, hs'⟩ := (R.render 0).again (i := (f, l.arg 0)) (j := (f', l'.arg 0))
        hrender hlater ⟨hfunctions, arg hl 0⟩
      exact ⟨_, w₂, .rendered harg' hrender', hw₂, .cons hs' .nil⟩

theorem chooses_later {chosen : Option Phrase} (h : Engine.Chooses b l w chosen w') : R.later w w' := by
  cases h with
  | nothing | sentence => exact R.refl w
  | @rendered f _ _ _ hrender => exact (R.render 0).goesOn (i := (f, l.arg 0)) hrender

theorem useReference_again {reference : String} {args : List Arg} {lexicon : Lexicon} {s : Sentence}
    (h : (Sentence.empty lexicon .firstLevel).useReference b.toInterpreter e.targets reference args w = .ok s w') :
    R.later w w' ∧ ∀ {args' w₁}, R.later w' w₁ → List.Forall₂ (R.ArgAgain w₁) args' args →
      List.Forall₂ (R.LexemAgain w₁) (e.referred reference args') (e.referred reference args) →
      ∃ s' w₂, (Sentence.empty lexicon .firstLevel).useReference b.toInterpreter e.targets reference args' w₁ =
        .ok s' w₂ ∧ R.later w₁ w₂ ∧ R.PhraseAgain w₂ (.new s') (.new s) := by
  unfold Sentence.useReference Engine.referred at *
  rcases hparts : Sentence.splitReference reference with _ | ⟨space, name⟩ <;> rw [hparts] at h
  · cases h
  rcases hget : e.targets.get? space with _ | used <;> simp only [hget] at h
  · cases h
  rcases hresolve : used.resolve name with _ | ⟨owner, word⟩ <;> simp only [hresolve] at h
  · cases h
  simp only [hget, hresolve, Option.bind_some, Engine.Attempt.ofAct_eq_ok] at h ⊢
  rcases word with _ | body | body
  case «alias» =>
    refine ⟨(R.run body ⟨owner, .firstLevel⟩ lexicon .firstLevel).goesOn h, fun hlater hargs _ => ?_⟩
    exact (R.run body ⟨owner, .firstLevel⟩ lexicon .firstLevel).again h hlater hargs
  all_goals
    cases h
    exact ⟨R.refl _, fun _ _ hmade => ⟨_, _, rfl, R.refl _, hmade⟩⟩

/-- A `switchUse` names or holds the same again. -/
theorem switches_again {chosen : Option Phrase} (hword : e.instruction? l = some .switchUse)
    (h : Engine.Switches b e l w chosen w') (hlater : R.later w' w₁) (hl : R.LexemAgain w₁ l' l) :
    ∃ chosen' w₂, Engine.Switches b e l' w₁ chosen' w₂ ∧ R.later w₁ w₂ ∧
      List.Forall₂ (R.PhraseAgain w₂) chosen'.toList chosen.toList := by
  have hchoice := arg hl 0
  have hmade := hl.made
  simp only [Engine.made, hl.instruction_eq, hword] at hmade
  generalize harg' : l'.arg 0 = a at hchoice hmade
  cases h with
  | nothing harg =>
      rw [harg] at hchoice
      cases hchoice
      exact ⟨none, w₁, .nothing harg', R.refl w₁, .nil⟩
  | sentence harg =>
      rw [harg] at hchoice
      obtain ⟨i', s', rfl, hs'⟩ := phraseAgain_of_sentence hchoice
      exact ⟨_, w₁, .sentence harg', R.refl w₁, .cons hs' .nil⟩
  | used harg hget huse =>
      rw [harg] at hchoice hmade
      cases hchoice
      obtain ⟨s', w₂, huse', hw₂, hs'⟩ :=
        (useReference_again huse).2 hlater (similarity.resembles (arg hl 1)).conforms.items hmade
      exact ⟨_, w₂, .used harg' hget huse', hw₂, .cons hs' .nil⟩

theorem switches_later {chosen : Option Phrase} (h : Engine.Switches b e l w chosen w') : R.later w w' := by
  cases h with
  | nothing | sentence => exact R.refl w
  | used _ _ huse => exact (useReference_again huse).1

/-- A render function is called with the items of a list again. -/
theorem itemPhrases_again {f : Identity} {items : List Arg} {index : Nat} {phrases : List Phrase}
    (h : Engine.itemPhrases b f index items w = .ok phrases w') :
    R.later w w' ∧ ∀ {f' items' w₁}, R.later w' w₁ → R.functions w₁ f' f → List.Forall₂ (R.ArgAgain w₁) items' items →
      ∃ phrases' w₂, Engine.itemPhrases b f' index items' w₁ = .ok phrases' w₂ ∧ R.later w₁ w₂ ∧
        List.Forall₂ (R.PhraseAgain w₂) phrases' phrases := by
  induction items generalizing index phrases w with
  | nil =>
      obtain ⟨rfl, rfl⟩ := Engine.itemPhrases_nil_ok.mp h
      refine ⟨R.refl w, fun {f' items' w₁} _ _ hitems => ?_⟩
      cases hitems
      exact ⟨[], w₁, Engine.itemPhrases_nil_ok.mpr ⟨rfl, rfl⟩, R.refl w₁, .nil⟩
  | cons item items ih =>
      obtain ⟨s, w₂, rest, hrender, hrest, rfl⟩ := Engine.itemPhrases_cons_ok.mp h
      have hlater := (R.render index).goesOn (i := (f, item)) hrender
      obtain ⟨hlaterRest, hagain⟩ := ih hrest
      refine ⟨R.trans hlater hlaterRest, fun {f' items' w₁} hw₁ hf hitems => ?_⟩
      cases hitems with
      | @cons item' _ items' _ hitem hitems =>
      obtain ⟨s', w₃, hrender', hw₃, hs'⟩ := (R.render index).again (i := (f, item)) (j := (f', item'))
        hrender (R.trans hlaterRest hw₁) ⟨hf, hitem⟩
      obtain ⟨rest', w₄, hrest', hw₄, hphrases⟩ := hagain (R.trans hw₁ hw₃) (R.mono hw₃ hf)
        (hitems.imp fun _ _ => argAgain_mono hw₃)
      exact ⟨_, w₄, Engine.itemPhrases_cons_ok.mpr ⟨s', w₃, rest', hrender', hrest', rfl⟩, R.trans hw₃ hw₄,
        .cons (hs'.imp fun _ _ => lexemAgain_mono hw₄) hphrases⟩

/-- An `each` makes the same of its items again. -/
theorem lists_again {phrases : List Phrase} (h : Engine.Lists b l w phrases w') (hlater : R.later w' w₁)
    (hl : R.LexemAgain w₁ l' l) :
    ∃ phrases' w₂, Engine.Lists b l' w₁ phrases' w₂ ∧ R.later w₁ w₂ ∧
      List.Forall₂ (R.PhraseAgain w₂) phrases' phrases := by
  obtain ⟨hitems, f, hf, hcalls⟩ := h
  have hlist := arg hl 0
  have hfunction := arg hl 1
  have hkind : l'.arg 0 = .null ∨ ∃ i items, l'.arg 0 = .list i items := by
    generalize l'.arg 0 = a at hlist
    rcases hitems with harg | ⟨i, items, harg⟩ <;> rw [harg] at hlist <;> cases hlist
    · exact .inl rfl
    · exact .inr ⟨_, _, rfl⟩
  rw [hf] at hfunction
  generalize hf' : l'.arg 1 = a at hfunction
  cases hfunction with
  | @render _ f' hfunctions =>
  obtain ⟨phrases', w₂, hcalls', hw₂, hphrases⟩ :=
    (itemPhrases_again hcalls).2 hlater hfunctions (similarity.resembles hlist).conforms.items
  exact ⟨phrases', w₂, ⟨hkind, f', hf', hcalls'⟩, hw₂, hphrases⟩

theorem lists_later {phrases : List Phrase} (h : Engine.Lists b l w phrases w') : R.later w w' := by
  obtain ⟨-, f, -, hcalls⟩ := h
  exact (itemPhrases_again hcalls).1

/-- A child as a sentence. The tag matters no further than its namespace does. -/
theorem childPhrase_again {child child' : Arg} {phrase : Phrase} (h : e.childPhrase l child = .ok phrase)
    (hchild : R.ArgAgain w child' child)
    (htext : List.Forall₂ (R.LexemAgain w) (Engine.textOf l child') (Engine.textOf l child)) :
    ∃ phrase', e.childPhrase l child' = .ok phrase' ∧ R.PhraseAgain w phrase' phrase := by
  cases hsentence : child.asSentence? with
  | some s =>
      cases child <;> cases hsentence
      obtain ⟨i', s', rfl, hs'⟩ := phraseAgain_of_sentence hchild
      cases h
      exact ⟨_, rfl, hs'⟩
  | none =>
      have hsentence' : child'.asSentence? = none := by
        cases hchild with
        | sentence => cases hsentence
        | _ => rfl
      obtain ⟨lexicon, hget, rfl⟩ := (Engine.childPhrase_text hsentence).mp h
      refine ⟨_, (Engine.childPhrase_text hsentence').mpr ⟨lexicon, hget, rfl⟩, ?_⟩
      simp only [Engine.textOf, hsentence, hsentence'] at htext
      exact htext

/-- A child of a tag again, with the text that it becomes. -/
structure ChildAgain (R : Rebuilding b e) (tag : Lexem) (child : Arg) (w : ω) (child' : Arg) : Prop where
  arg : R.ArgAgain w child' child
  text : List.Forall₂ (R.LexemAgain w) (Engine.textOf tag child') (Engine.textOf tag child)

theorem ChildAgain.mono {child child' : Arg} (hlater : R.later w w') (h : R.ChildAgain l child w child') :
    R.ChildAgain l child w' child' :=
  ⟨argAgain_mono hlater h.arg, h.text.imp fun _ _ => lexemAgain_mono hlater⟩

theorem children_again (hword : e.instruction? l = some .tag) (h : R.LexemAgain w l' l) :
    List.Forall₂ (fun child' child => R.ChildAgain l child w child') l'.children l.children := by
  have hchildren := similarity.conformity.children (alike h)
  have hmade := h.made
  have htexts : Engine.textOf l' = Engine.textOf l := by
    funext child
    rw [Engine.textOf, Engine.textOf, h.space]
  simp only [Engine.made, h.instruction_eq, hword, htexts] at hmade
  generalize l'.children = children', l.children = children at hchildren hmade
  induction hchildren with
  | nil => exact .nil
  | cons hchild _ ih =>
      rw [List.flatMap_cons, List.flatMap_cons] at hmade
      have harg := hchild
      cases hchild with
      | sentence => exact .cons ⟨harg, .nil⟩ (ih hmade)
      | _ =>
          cases hmade with
          | cons hhead htail => exact .cons ⟨harg, .cons hhead .nil⟩ (ih htail)

end Rebuilding

end Parlance
