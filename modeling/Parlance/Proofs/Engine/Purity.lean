import Parlance.Proofs.Engine.RenderStep
import Parlance.Proofs.Sentence.Likeness

/-! Behaviours that can be relied on. A world may go on, and what has been said about arguments stays true as it
does. Bodies, render functions and callbacks that have succeeded on arguments succeed again in every later world
on arguments that are alike, and what they give is alike. Everything that a lexem runs inherits this. -/

namespace Parlance

open Pass

variable {ω : Type}

/-- Phrases with lexems that are alike, of which the first is known under its identity. -/
structure Phrase.Alike (R : Arg → Arg → Prop) (p p' : Phrase) : Prop where
  lexems : LexemsAlike R p.sentence.lexems p'.sentence.lexems
  named : ∀ i, p.identity = some i → R (.sentence i p.sentence) (.sentence i p.sentence)

/-- Computations, given by what they take, the worlds before and after, and what they give, that can be
repeated later on. -/
structure Repeatable {ι α : Type} (later : ω → ω → Prop) (like : ω → ι → ι → Prop) (agree : ω → α → α → Prop)
    (step : ι → ω → α → ω → Prop) : Prop where
  goesOn : ∀ {i w x w'}, like w i i → step i w x w' → later w w'
  known : ∀ {i w x w'}, like w i i → step i w x w' → agree w' x x
  again : ∀ {i w x w' i' w₁}, like w i i → step i w x w' → later w' w₁ → like w₁ i' i →
    ∃ x' w₂, step i' w₁ x' w₂ ∧ later w₁ w₂ ∧ agree w₂ x' x

/-- A behaviour whose functions can be relied on. Which worlds come later and which arguments are alike is part
of what has to be given. -/
structure Purity (b : Behaviour ω) where
  later : ω → ω → Prop
  alike : ω → Arg → Arg → Prop
  refl : ∀ w, later w w
  trans : ∀ {w w' w''}, later w w' → later w' w'' → later w w''
  likeness : ∀ w, Likeness (alike w)
  mono : ∀ {w w' a a'}, later w w' → alike w a a' → alike w' a a'
  /-- Arguments that count as unchanged are alike. -/
  same : ∀ {w a a'}, alike w a a → alike w a' a' → a.same a' = true → alike w a a'
  run : ∀ (body : Body) (init : Initializer) (lexicon : Lexicon) (level : Level),
    Repeatable later (fun w => List.Forall₂ (alike w)) (fun w s s' => LexemsAlike (alike w) s.lexems s'.lexems)
      fun args w s w' => b.run body init (Sentence.empty lexicon level) args w = .ok s w'
  render : ∀ index : Nat,
    Repeatable later (fun w (f f' : Identity × Arg) => alike w (.render f.1) (.render f'.1) ∧ alike w f.2 f'.2)
      (fun w s s' => LexemsAlike (alike w) s.lexems s'.lexems)
      fun (f : Identity × Arg) w s w' => b.render f.1 f.2 index w = .ok s w'
  callback : Repeatable later
    (fun w (f f' : Identity × List Arg) => alike w (.callback f.1) (.callback f'.1) ∧ List.Forall₂ (alike w) f.2 f'.2)
    (fun _ (_ _ : Unit) => True) fun (f : Identity × List Arg) w _ w' => b.callback f.1 f.2 w = .ok () w'

/-- The argument that an `if` chooses. -/
def Lexem.chosenArg (lexem : Lexem) : Arg := lexem.arg (if (lexem.arg 0).isTruthy then 1 else 2)

namespace Engine

variable (b : Behaviour ω)

/-- What an `if` chooses, and the world that comes of it. -/
inductive Chooses (lexem : Lexem) (w : ω) : Option Phrase → ω → Prop
  | nothing (harg : lexem.chosenArg = .null) : Chooses lexem w none w
  | sentence {i : Identity} {s : Sentence} (harg : lexem.chosenArg = .sentence i s) :
      Chooses lexem w (some ⟨some i, s⟩) w
  | rendered {f : Identity} {s : Sentence} {w' : ω} (harg : lexem.chosenArg = .render f)
      (hrender : b.render f (lexem.arg 0) 0 w = .ok s w') : Chooses lexem w (some (.new s)) w'

/-- What a `switchUse` names or holds. -/
inductive Switches (e : Engine) (lexem : Lexem) (w : ω) : Option Phrase → ω → Prop
  | nothing (harg : lexem.arg 0 = .null) : Switches e lexem w none w
  | sentence {i : Identity} {s : Sentence} (harg : lexem.arg 0 = .sentence i s) :
      Switches e lexem w (some ⟨some i, s⟩) w
  | used {reference : String} {lexicon : Lexicon} {s : Sentence} {w' : ω} (harg : lexem.arg 0 = .str reference)
      (hget : e.targets.get (String.ofList (reference.toList.takeWhile (· ≠ ':'))) = .ok lexicon)
      (huse : (Sentence.empty lexicon .firstLevel).useReference b.toInterpreter e.targets reference
        (lexem.arg 1).items w = .ok s w') : Switches e lexem w (some (.new s)) w'

/-- What an `each` makes of the items of its list. -/
structure Lists (lexem : Lexem) (w : ω) (phrases : List Phrase) (w' : ω) : Prop where
  items : lexem.arg 0 = .null ∨ ∃ i items, lexem.arg 0 = .list i items
  calls : ∃ f, lexem.arg 1 = .render f ∧ itemPhrases b f 0 (lexem.arg 0).items w = .ok phrases w'

/-- What a compound stands for. -/
structure Develops (e : Engine) (lexem : Lexem) (w : ω) (s : Sentence) (w' : ω) : Prop where
  body : ∃ lexicon owner body, e.targets.get lexem.space = .ok lexicon ∧
    lexicon.resolve lexem.name = some (owner, .compound body) ∧
    b.run body ⟨owner, .firstLevel⟩ (Sentence.empty lexicon .firstLevel) lexem.args w = .ok s w'

variable {b} {e : Engine} {lexem : Lexem} {σ σ' : Stage ω}

theorem develop_ok {s : Sentence} (h : e.develop b lexem σ = .ok s σ') :
    ∃ w, Develops b e lexem σ.world s w ∧ σ' = σ.inWorld w := by
  unfold develop at h
  cases hget : e.targets.get lexem.space with
  | error err =>
      rw [hget] at h
      exact (fail_eq_ok.mp h).elim
  | ok lexicon =>
      rw [hget] at h
      obtain ⟨w, hexpand, rfl⟩ := attempt_eq_ok.mp h
      refine ⟨w, ⟨lexicon, ?_⟩, rfl⟩
      unfold Lexicon.develop Lexicon.expand at hexpand
      rcases hresolve : lexicon.resolve lexem.name with _ | ⟨owner, _ | body | body⟩ <;> rw [hresolve] at hexpand
      · cases hexpand
      · cases hexpand
      · exact ⟨owner, body, hget, rfl, Attempt.ofAct_eq_ok.mp hexpand⟩
      · cases hexpand

theorem Develops.ok {s : Sentence} {w : ω} (h : Develops b e lexem σ.world s w) :
    e.develop b lexem σ = .ok s (σ.inWorld w) := by
  obtain ⟨lexicon, owner, body, hget, hresolve, hrun⟩ := h
  unfold develop
  rw [hget]
  refine attempt_eq_ok.mpr ⟨w, ?_, rfl⟩
  unfold Lexicon.develop Lexicon.expand
  rw [hresolve]
  exact Attempt.ofAct_eq_ok.mpr hrun

theorem chosenPhrase_ok {chosen : Option Phrase} (h : chosenPhrase b lexem σ = .ok chosen σ') :
    ∃ w, Chooses b lexem σ.world chosen w ∧ σ' = σ.inWorld w := by
  unfold chosenPhrase at h
  generalize hfailure : lexem.invalid _ _ = failure at h
  cases harg : lexem.chosenArg with
  | null =>
      rw [Lexem.chosenArg] at harg
      simp only [harg] at h
      obtain ⟨rfl, rfl⟩ := pure_eq_ok.mp h
      exact ⟨σ.world, .nothing harg, rfl⟩
  | sentence i s =>
      rw [Lexem.chosenArg] at harg
      simp only [harg] at h
      obtain ⟨rfl, rfl⟩ := pure_eq_ok.mp h
      exact ⟨σ.world, .sentence harg, rfl⟩
  | render f =>
      rw [Lexem.chosenArg] at harg
      simp only [harg, bind_eq_ok, act_eq_ok, pure_eq_ok] at h
      obtain ⟨s, _, ⟨w, hrender, rfl⟩, rfl, rfl⟩ := h
      exact ⟨w, .rendered harg hrender, rfl⟩
  | _ =>
      rw [Lexem.chosenArg] at harg
      simp only [harg] at h
      rw [← hfailure] at h
      cases (ofExcept_eq_ok.mp h).1

theorem Chooses.ok {chosen : Option Phrase} {w : ω} (h : Chooses b lexem σ.world chosen w) :
    chosenPhrase b lexem σ = .ok chosen (σ.inWorld w) := by
  unfold chosenPhrase
  generalize lexem.invalid _ _ = failure
  cases h with
  | nothing harg | sentence harg =>
      rw [Lexem.chosenArg] at harg
      simp only [harg]
      rfl
  | rendered harg hrender =>
      rw [Lexem.chosenArg] at harg
      simp only [harg, bind_eq_ok, act_eq_ok, pure_eq_ok]
      exact ⟨_, _, ⟨w, hrender, rfl⟩, rfl, rfl⟩

theorem switchedPhrase_ok {chosen : Option Phrase} (h : e.switchedPhrase b lexem σ = .ok chosen σ') :
    ∃ w, Switches b e lexem σ.world chosen w ∧ σ' = σ.inWorld w := by
  unfold switchedPhrase at h
  generalize hfailure : lexem.invalid _ _ = failure at h
  cases harg : lexem.arg 0 with
  | null =>
      simp only [harg] at h
      obtain ⟨rfl, rfl⟩ := pure_eq_ok.mp h
      exact ⟨σ.world, .nothing harg, rfl⟩
  | sentence i s =>
      simp only [harg] at h
      obtain ⟨rfl, rfl⟩ := pure_eq_ok.mp h
      exact ⟨σ.world, .sentence harg, rfl⟩
  | str reference =>
      simp only [harg] at h
      cases hget : e.targets.get (String.ofList (reference.toList.takeWhile (· ≠ ':'))) with
      | error err =>
          rw [hget] at h
          exact (fail_eq_ok.mp h).elim
      | ok lexicon =>
          simp only [hget, bind_eq_ok, attempt_eq_ok, pure_eq_ok] at h
          obtain ⟨_, _, ⟨w, huse, rfl⟩, rfl, rfl⟩ := h
          exact ⟨w, .used harg hget huse, rfl⟩
  | _ =>
      simp only [harg] at h
      rw [← hfailure] at h
      cases (ofExcept_eq_ok.mp h).1

theorem Switches.ok {chosen : Option Phrase} {w : ω} (h : Switches b e lexem σ.world chosen w) :
    e.switchedPhrase b lexem σ = .ok chosen (σ.inWorld w) := by
  unfold switchedPhrase
  generalize lexem.invalid _ _ = failure
  cases h with
  | nothing harg | sentence harg =>
      simp only [harg]
      rfl
  | used harg hget huse =>
      simp only [harg, hget, bind_eq_ok, attempt_eq_ok, pure_eq_ok]
      exact ⟨_, _, ⟨w, huse, rfl⟩, rfl, rfl⟩

theorem eachPhrases_ok {phrases : List Phrase} (h : eachPhrases b lexem σ = .ok phrases σ') :
    ∃ w, Lists b lexem σ.world phrases w ∧ σ' = σ.inWorld w := by
  unfold eachPhrases at h
  generalize hlist : lexem.invalid 0 _ = listFailure at h
  generalize hfailure : lexem.invalid 1 _ = failure at h
  cases hfunction : lexem.arg 1 <;> simp only [hfunction] at h
  case render f =>
    cases hitems : lexem.arg 0 <;> simp only [hitems] at h <;> obtain ⟨_, _, hstep, h⟩ := bind_eq_ok.mp h
    case null =>
      obtain ⟨rfl, rfl⟩ := pure_eq_ok.mp hstep
      obtain ⟨w, hcalls, rfl⟩ := act_eq_ok.mp h
      exact ⟨w, ⟨.inl hitems, f, hfunction, by rw [hitems]; exact hcalls⟩, rfl⟩
    case list =>
      obtain ⟨rfl, rfl⟩ := pure_eq_ok.mp hstep
      obtain ⟨w, hcalls, rfl⟩ := act_eq_ok.mp h
      exact ⟨w, ⟨.inr ⟨_, _, hitems⟩, f, hfunction, by rw [hitems]; exact hcalls⟩, rfl⟩
    all_goals
      subst hlist
      cases (ofExcept_eq_ok.mp hstep).1
  all_goals
    subst hfailure
    cases hitems : lexem.arg 0 <;> simp only [hitems] at h <;> obtain ⟨_, _, hstep, h⟩ := bind_eq_ok.mp h <;>
      cases (ofExcept_eq_ok.mp h).1

theorem Lists.ok {phrases : List Phrase} {w : ω} (h : Lists b lexem σ.world phrases w) :
    eachPhrases b lexem σ = .ok phrases (σ.inWorld w) := by
  obtain ⟨hitems, f, hfunction, hcalls⟩ := h
  unfold eachPhrases
  generalize lexem.invalid 0 _ = listFailure
  generalize lexem.invalid 1 _ = failure
  rcases hitems with harg | ⟨i, items, harg⟩ <;> rw [harg] at hcalls <;> simp only [harg, hfunction]
  · exact bind_eq_ok.mpr ⟨_, σ, rfl, act_eq_ok.mpr ⟨w, hcalls, rfl⟩⟩
  · exact bind_eq_ok.mpr ⟨_, σ, rfl, act_eq_ok.mpr ⟨w, hcalls, rfl⟩⟩

theorem itemPhrases_nil_ok {f : Identity} {index : Nat} {phrases : List Phrase} {w w' : ω} :
    itemPhrases b f index [] w = .ok phrases w' ↔ [] = phrases ∧ w = w' := Act.pure_eq_ok

theorem itemPhrases_cons_ok {f : Identity} {index : Nat} {item : Arg} {items : List Arg} {phrases : List Phrase}
    {w w' : ω} :
    itemPhrases b f index (item :: items) w = .ok phrases w' ↔ ∃ s w₁ rest,
      b.render f item index w = .ok s w₁ ∧ itemPhrases b f (index + 1) items w₁ = .ok rest w' ∧
        .new s :: rest = phrases := by
  simp only [itemPhrases, Act.bind_eq_ok, Act.pure_eq_ok]
  constructor
  · rintro ⟨s, w₁, hrender, rest, _, hrest, rfl, rfl⟩
    exact ⟨s, w₁, rest, hrender, hrest, rfl⟩
  · rintro ⟨s, w₁, rest, hrender, hrest, rfl⟩
    exact ⟨s, w₁, hrender, rest, w', hrest, rfl, rfl⟩

end Engine

namespace Purity

variable {b : Behaviour ω} (P : Purity b)

/-- A sentence whose lexems are known. -/
def Known (w : ω) (lexems : List Lexem) : Prop := LexemsAlike (P.alike w) lexems lexems

variable {P} {w w' : ω}

theorem alike_left {a a' : Arg} (h : P.alike w a a') : P.alike w a a :=
  (P.likeness w).trans h ((P.likeness w).symm h)

theorem args_mono (h : P.later w w') {as as' : List Arg} (has : List.Forall₂ (P.alike w) as as') :
    List.Forall₂ (P.alike w') as as' := has.imp fun _ _ => P.mono h

theorem lexem_mono (h : P.later w w') {l l' : Lexem} (hl : l.Alike (P.alike w) l') : l.Alike (P.alike w') l' :=
  hl.mono fun _ _ => P.mono h

theorem lexems_mono (h : P.later w w') {ls ls' : List Lexem} (hls : LexemsAlike (P.alike w) ls ls') :
    LexemsAlike (P.alike w') ls ls' := hls.mono fun _ _ => P.mono h

theorem phrase_mono (h : P.later w w') {p p' : Phrase} (hp : p.Alike (P.alike w) p') : p.Alike (P.alike w') p' :=
  ⟨lexems_mono h hp.lexems, fun i hi => P.mono h (hp.named i hi)⟩

/-- A sentence that no argument held. -/
theorem phrase_new {s s' : Sentence} (h : LexemsAlike (P.alike w) s.lexems s'.lexems) :
    (Phrase.new s).Alike (P.alike w) (.new s') := ⟨h, fun _ hi => absurd hi (by simp [Phrase.new])⟩

/-- A sentence that an argument held. -/
theorem phrase_sentence {i i' : Identity} {s s' : Sentence} (h : P.alike w (.sentence i s) (.sentence i' s')) :
    (⟨some i, s⟩ : Phrase).Alike (P.alike w) ⟨some i', s'⟩ := by
  refine ⟨((P.likeness w).resembles h).sentence_lexems, ?_⟩
  rintro _ ⟨⟩
  exact alike_left h

variable (P)

/-- A word that is called on an empty sentence of the first level. -/
theorem apply_repeatable (word : Word) (owner lexicon : Lexicon) (name : String) :
    Repeatable P.later (fun w => List.Forall₂ (P.alike w))
      (fun w s s' => LexemsAlike (P.alike w) s.lexems s'.lexems)
      fun args w s w' => word.apply b.toInterpreter owner (Sentence.empty lexicon .firstLevel) name args w =
        .ok s w' := by
  have happend : Repeatable P.later (fun w => List.Forall₂ (P.alike w))
      (fun w s s' => LexemsAlike (P.alike w) s.lexems s'.lexems)
      fun args w s w' => (pure ((Sentence.empty lexicon .firstLevel).append owner.name name args) : Act ω Sentence) w =
        .ok s w' := by
    have hlexems : ∀ {w : ω} {args args' : List Arg}, List.Forall₂ (P.alike w) args args' →
        LexemsAlike (P.alike w) ((Sentence.empty lexicon .firstLevel).append owner.name name args).lexems
          ((Sentence.empty lexicon .firstLevel).append owner.name name args').lexems := fun h =>
      .cons ⟨rfl, rfl, h⟩ .nil
    refine ⟨?_, ?_, ?_⟩
    · rintro args w _ _ - ⟨⟩
      exact P.refl w
    · rintro args w _ _ hargs ⟨⟩
      exact hlexems hargs
    · rintro args w _ _ args' w₁ - ⟨⟩ - hargs'
      exact ⟨_, w₁, rfl, P.refl w₁, hlexems hargs'⟩
  rcases word with _ | body | body
  · exact happend
  · exact happend
  · exact P.run body ⟨owner, .firstLevel⟩ lexicon .firstLevel

theorem useReference_repeatable (registry : Registry) (lexicon : Lexicon) (reference : String) :
    Repeatable P.later (fun w => List.Forall₂ (P.alike w))
      (fun w s s' => LexemsAlike (P.alike w) s.lexems s'.lexems)
      fun args w s w' => (Sentence.empty lexicon .firstLevel).useReference b.toInterpreter registry reference args w =
        .ok s w' := by
  have hfails : ∀ {err : LexiconError}, Repeatable P.later (fun w => List.Forall₂ (P.alike w))
      (fun w s s' => LexemsAlike (P.alike w) s.lexems s'.lexems)
      fun (_ : List Arg) w s w' => (throw (.error err) : Attempt LexiconError ω Sentence) w = .ok s w' := by
    intro err
    refine ⟨?_, ?_, ?_⟩
    · rintro args w _ _ - ⟨⟩
    · rintro args w _ _ - ⟨⟩
    · rintro args w _ _ args' w₁ - ⟨⟩
  unfold Sentence.useReference
  rcases hparts : Sentence.splitReference reference with _ | ⟨lexiconName, name⟩
  · exact hfails
  dsimp only
  rcases registry.get? lexiconName with _ | used
  · exact hfails
  dsimp only
  rcases used.resolve name with _ | ⟨owner, word⟩
  · exact hfails
  dsimp only
  simp only [Engine.Attempt.ofAct_eq_ok]
  exact P.apply_repeatable word owner lexicon name

/-- A render function that is called with the items of a list. -/
theorem itemPhrases_repeatable (index : Nat) :
    Repeatable P.later
      (fun w (f f' : Identity × List Arg) =>
        P.alike w (.render f.1) (.render f'.1) ∧ List.Forall₂ (P.alike w) f.2 f'.2)
      (fun w => List.Forall₂ (Phrase.Alike (P.alike w)))
      fun (f : Identity × List Arg) w phrases w' => Engine.itemPhrases b f.1 index f.2 w = .ok phrases w' := by
  have hwhole : ∀ {items : List Arg} {f : Identity} {index : Nat} {phrases : List Phrase} {w w' : ω},
      P.alike w (.render f) (.render f) → List.Forall₂ (P.alike w) items items →
      Engine.itemPhrases b f index items w = .ok phrases w' →
      P.later w w' ∧ List.Forall₂ (Phrase.Alike (P.alike w')) phrases phrases ∧
        ∀ {f' items' w₁}, P.later w' w₁ → P.alike w₁ (.render f') (.render f) →
          List.Forall₂ (P.alike w₁) items' items → ∃ phrases' w₂,
            Engine.itemPhrases b f' index items' w₁ = .ok phrases' w₂ ∧ P.later w₁ w₂ ∧
              List.Forall₂ (Phrase.Alike (P.alike w₂)) phrases' phrases := by
    intro items
    induction items with
    | nil =>
        intro f index phrases w w' hf hitems h
        obtain ⟨rfl, rfl⟩ := Engine.itemPhrases_nil_ok.mp h
        refine ⟨P.refl w, .nil, fun {f' items' w₁} _ _ hitems' => ?_⟩
        cases hitems'
        exact ⟨[], w₁, Engine.itemPhrases_nil_ok.mpr ⟨rfl, rfl⟩, P.refl w₁, .nil⟩
    | cons item items ih =>
        intro f index phrases w w' hf hitems h
        obtain ⟨s, w₁, rest, hrender, hrest, rfl⟩ := Engine.itemPhrases_cons_ok.mp h
        cases hitems with
        | cons hitem hitems =>
        have hlike : P.alike w (.render (f, item).1) (.render (f, item).1) ∧ P.alike w (f, item).2 (f, item).2 :=
          ⟨hf, hitem⟩
        have hlater := (P.render index).goesOn hlike hrender
        have hknown := (P.render index).known hlike hrender
        obtain ⟨hlaterRest, hknownRest, hagain⟩ := ih (P.mono hlater hf) (args_mono hlater hitems) hrest
        refine ⟨P.trans hlater hlaterRest, .cons (phrase_new (lexems_mono hlaterRest hknown)) hknownRest, ?_⟩
        intro f' items' w₂ hw₂ hf' hitems'
        cases hitems' with
        | @cons item' _ items' _ hitem' hitems' =>
        have hlike' : P.alike w₂ (.render (f', item').1) (.render (f, item).1) ∧
            P.alike w₂ (f', item').2 (f, item).2 := ⟨hf', hitem'⟩
        obtain ⟨s', w₃, hrender', hw₃, hs'⟩ := (P.render index).again hlike hrender (P.trans hlaterRest hw₂) hlike'
        obtain ⟨rest', w₄, hrest', hw₄, hphrases⟩ :=
          hagain (P.trans hw₂ hw₃) (P.mono hw₃ hf') (args_mono hw₃ hitems')
        exact ⟨_, w₄, Engine.itemPhrases_cons_ok.mpr ⟨s', w₃, rest', hrender', hrest', rfl⟩, P.trans hw₃ hw₄,
          .cons (phrase_new (lexems_mono hw₄ hs')) hphrases⟩
  refine ⟨?_, ?_, ?_⟩
  · rintro ⟨f, items⟩ w phrases w' ⟨hf, hitems⟩ h
    exact (hwhole hf hitems h).1
  · rintro ⟨f, items⟩ w phrases w' ⟨hf, hitems⟩ h
    exact (hwhole hf hitems h).2.1
  · rintro ⟨f, items⟩ w phrases w' ⟨f', items'⟩ w₁ ⟨hf, hitems⟩ h hw₁ ⟨hf', hitems'⟩
    exact (hwhole hf hitems h).2.2 hw₁ hf' hitems'

end Purity

end Parlance
