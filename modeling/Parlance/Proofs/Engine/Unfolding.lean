import Parlance.Proofs.Engine.Holding
import Parlance.Proofs.Engine.Purity

/-! What a lexem runs in the world, and the phrases that come of it: the sentence that a compound stands for, the
children of a tag, the choice of an `if` or a `switchUse`, the items of an `each`. For a behaviour that can be
relied on all of this can be repeated, so what a lexem unfolds to is the same from pass to pass. -/

namespace Parlance

variable {ω : Type}

/-- Whether an instruction runs something or puts sentences in its place. -/
def Instruction.unfolds : Instruction → Bool
  | .tag | .ifElse | .switchUse | .each | .execute => true
  | _ => false

namespace Engine

/-- The words that are given a list of arguments in one. -/
def packs (e : Engine) (lexem : Lexem) : Bool :=
  e.instruction? lexem = some .switchUse || e.instruction? lexem = some .execute

/-- What a lexem unfolds to in a world. -/
inductive Unfolds (b : Behaviour ω) (e : Engine) (lexem : Lexem) (w : ω) : List Phrase → ω → Prop
  | foreign (hspace : e.isTarget lexem.space = false) : Unfolds b e lexem w [] w
  | developed {s : Sentence} {w' : ω} (hspace : e.isTarget lexem.space = true)
      (hword : e.instruction? lexem = none) (hdevelops : Develops b e lexem w s w') :
      Unfolds b e lexem w [.new s] w'
  | children {phrases : List Phrase} (hspace : e.isTarget lexem.space = true)
      (hword : e.instruction? lexem = some .tag) (hphrases : e.ChildPhrases lexem lexem.children phrases) :
      Unfolds b e lexem w phrases w
  | chosen {chosen : Option Phrase} {w' : ω} (hspace : e.isTarget lexem.space = true)
      (hword : e.instruction? lexem = some .ifElse) (hchooses : Chooses b lexem w chosen w') :
      Unfolds b e lexem w chosen.toList w'
  | switched {chosen : Option Phrase} {w' : ω} (hspace : e.isTarget lexem.space = true)
      (hword : e.instruction? lexem = some .switchUse) (hswitches : Switches b e lexem w chosen w') :
      Unfolds b e lexem w chosen.toList w'
  | listed {phrases : List Phrase} {w' : ω} (hspace : e.isTarget lexem.space = true)
      (hword : e.instruction? lexem = some .each) (hlists : Lists b lexem w phrases w') :
      Unfolds b e lexem w phrases w'
  | called {callback : Identity} {w' : ω} (hspace : e.isTarget lexem.space = true)
      (hword : e.instruction? lexem = some .execute) (hcallback : lexem.arg 0 = .callback callback)
      (hcall : b.callback callback (lexem.arg 1).items w = .ok () w') : Unfolds b e lexem w [] w'
  | still {i : Instruction} (hspace : e.isTarget lexem.space = true) (hword : e.instruction? lexem = some i)
      (hstill : i.unfolds = false) : Unfolds b e lexem w [] w

/-- A lexem that may stand for another as far as what it unfolds to goes. -/
structure Serves (e : Engine) (R : Arg → Arg → Prop) (l l' : Lexem) : Prop where
  space : l.space = l'.space
  name : l.name = l'.name
  args : e.packs l = false → List.Forall₂ R l.args l'.args
  packed : e.packs l = true → R (l.arg 0) (l'.arg 0) ∧ List.Forall₂ R (l.arg 1).items (l'.arg 1).items

variable {e : Engine} {l l' : Lexem}

theorem instruction_congr (hspace : l.space = l'.space) (hname : l.name = l'.name) :
    e.instruction? l = e.instruction? l' := by
  rw [instruction?, instruction?, hspace, hname]

theorem packs_congr (hspace : l.space = l'.space) (hname : l.name = l'.name) : e.packs l = e.packs l' := by
  rw [packs, packs, instruction_congr hspace hname]

namespace Serves

variable {R R' : Arg → Arg → Prop}

theorem of_alike (hR : Likeness R) (h : l.Alike R l') : e.Serves R l l' :=
  ⟨h.space, h.name, fun _ => h.args,
    fun _ => ⟨hR.conformity.arg h 0, (hR.conformity.conforms (hR.conformity.arg h 1)).items⟩⟩

theorem trans (hR : Likeness R) {l'' : Lexem} (h : e.Serves R l l') (h' : e.Serves R l' l'') :
    e.Serves R l l'' := by
  have hpacks : e.packs l' = e.packs l := packs_congr h.space.symm h.name.symm
  refine ⟨h.space.trans h'.space, h.name.trans h'.name, fun hl => ?_, fun hl => ?_⟩
  · exact hR.args_trans (h.args hl) (h'.args (hpacks.trans hl))
  · obtain ⟨hhead, hitems⟩ := h.packed hl
    obtain ⟨hhead', hitems'⟩ := h'.packed (hpacks.trans hl)
    exact ⟨hR.trans hhead hhead', hR.args_trans hitems hitems'⟩

theorem mono (hmono : ∀ a a', R a a' → R' a a') (h : e.Serves R l l') : e.Serves R' l l' :=
  ⟨h.space, h.name, fun hl => (h.args hl).imp hmono,
    fun hl => ⟨hmono _ _ (h.packed hl).1, (h.packed hl).2.imp hmono⟩⟩

/-- Arguments that are taken one by one. -/
theorem alike (h : e.Serves R l l') (hl : e.packs l = false) : l.Alike R l' := ⟨h.space, h.name, h.args hl⟩

end Serves

end Engine

/-- A child that is no sentence becomes a text. -/
theorem Engine.childPhrase_text {e : Engine} {tag : Lexem} {child : Arg} {phrase : Phrase}
    (hchild : child.asSentence? = none) :
    e.childPhrase tag child = .ok phrase ↔ ∃ lexicon, e.targets.get tag.space = .ok lexicon ∧
      phrase = .new ((Sentence.empty lexicon .firstLevel).append tag.space "text" [child]) := by
  cases hget : e.targets.get tag.space with
  | error err =>
      have hfails : e.childPhrase tag child = .error (.vocabulary err) := by
        cases child with
        | sentence => cases hchild
        | _ => simp only [childPhrase, hget]
      simp [hfails]
  | ok lexicon =>
      have hreads : e.childPhrase tag child =
          .ok (.new ((Sentence.empty lexicon .firstLevel).append tag.space "text" [child])) := by
        cases child with
        | sentence => cases hchild
        | _ => simp only [childPhrase, hget]
      simp [hreads, eq_comm]

theorem Engine.childPhrases_unique {e : Engine} {tag : Lexem} {children : List Arg} {phrases phrases' : List Phrase}
    (h : e.ChildPhrases tag children phrases) (h' : e.ChildPhrases tag children phrases') : phrases = phrases' := by
  induction h generalizing phrases' with
  | nil =>
      cases h'
      rfl
  | cons head _ ih =>
      cases h' with
      | cons head' tail' =>
          rw [head] at head'
          cases head'
          rw [ih tail']

namespace Purity

variable {b : Behaviour ω} (P : Purity b) (e : Engine)

/-- A child of a tag is read the same way whenever it is alike. -/
theorem childPhrase_again {w : ω} {tag tag' : Lexem} (hspace : tag'.space = tag.space) {child child' : Arg}
    {phrase : Phrase} (h : e.childPhrase tag child = .ok phrase) (hchild : P.alike w child' child) :
    ∃ phrase', e.childPhrase tag' child' = .ok phrase' ∧ phrase'.Alike (P.alike w) phrase := by
  have hresembles := (P.likeness w).resembles hchild
  cases hsentence : child.asSentence? with
  | some s =>
      cases child <;> cases hsentence
      cases h
      cases hresembles
      exact ⟨_, rfl, phrase_sentence hchild⟩
  | none =>
      have hsentence' : child'.asSentence? = none := by
        cases hresembles with
        | sentence => cases hsentence
        | _ => rfl
      obtain ⟨lexicon, hget, rfl⟩ := (Engine.childPhrase_text hsentence).mp h
      refine ⟨_, (Engine.childPhrase_text hsentence').mpr ⟨lexicon, hspace ▸ hget, rfl⟩, phrase_new ?_⟩
      exact .cons ⟨hspace, rfl, .cons hchild .nil⟩ .nil

theorem childPhrases_again {w : ω} {tag tag' : Lexem} (hspace : tag'.space = tag.space)
    {children children' : List Arg} {phrases : List Phrase} (h : e.ChildPhrases tag children phrases)
    (hchildren : List.Forall₂ (P.alike w) children' children) :
    ∃ phrases', e.ChildPhrases tag' children' phrases' ∧
      List.Forall₂ (Phrase.Alike (P.alike w)) phrases' phrases := by
  induction h generalizing children' with
  | nil =>
      cases hchildren
      exact ⟨[], .nil, .nil⟩
  | cons hphrase _ ih =>
      cases hchildren with
      | cons hchild htail =>
      obtain ⟨phrases', hphrases', halike⟩ := ih htail
      obtain ⟨phrase', hphrase', hhead⟩ := P.childPhrase_again e hspace hphrase hchild
      exact ⟨phrase' :: phrases', .cons hphrase' hphrases', .cons hhead halike⟩

/-- What an `if` chooses. -/
theorem chooses_repeatable : Repeatable P.later (fun w => Lexem.Alike (P.alike w))
    (fun w (p p' : Option Phrase) => List.Forall₂ (Phrase.Alike (P.alike w)) p.toList p'.toList)
    (Engine.Chooses b) := by
  have hcall : ∀ {w : ω} {l l' : Lexem} {f f' : Identity}, l.Alike (P.alike w) l' →
      l.chosenArg = .render f → l'.chosenArg = .render f' → P.alike w l.chosenArg l'.chosenArg →
      P.alike w (.render (f, l.arg 0).1) (.render (f', l'.arg 0).1) ∧ P.alike w (f, l.arg 0).2 (f', l'.arg 0).2 := by
    intro w l l' f f' h hf hf' hchosen
    rw [hf, hf'] at hchosen
    exact ⟨hchosen, (P.likeness w).conformity.arg h 0⟩
  have hchosen : ∀ {w : ω} {l l' : Lexem}, l.Alike (P.alike w) l' → P.alike w l.chosenArg l'.chosenArg := by
    intro w l l' h
    have hconforms := (P.likeness w).conformity
    rw [Lexem.chosenArg, Lexem.chosenArg, (hconforms.conforms (hconforms.arg h 0)).isTruthy_eq]
    exact hconforms.arg h _
  refine ⟨?_, ?_, ?_⟩
  · intro l w chosen w' hl h
    cases h with
    | nothing | sentence => exact P.refl w
    | rendered harg hrender => exact (P.render 0).goesOn (hcall hl harg harg (hchosen hl)) hrender
  · intro l w chosen w' hl h
    cases h with
    | nothing => exact .nil
    | sentence harg => exact .cons (phrase_sentence (harg ▸ hchosen hl)) .nil
    | rendered harg hrender =>
        exact .cons (phrase_new ((P.render 0).known (hcall hl harg harg (hchosen hl)) hrender)) .nil
  · intro l w chosen w' l' w₁ hl h hlater hl'
    have halike := hchosen hl'
    cases h with
    | nothing harg =>
        have hresembles := (P.likeness w₁).resembles (harg ▸ halike)
        generalize harg' : l'.chosenArg = chosenArg at hresembles
        cases hresembles
        exact ⟨none, w₁, .nothing harg', P.refl w₁, .nil⟩
    | sentence harg =>
        rw [harg] at halike
        have hresembles := (P.likeness w₁).resembles halike
        generalize harg' : l'.chosenArg = chosenArg at hresembles halike
        cases hresembles
        exact ⟨_, w₁, .sentence harg', P.refl w₁, .cons (phrase_sentence halike) .nil⟩
    | rendered harg hrender =>
        have hresembles := (P.likeness w₁).resembles (harg ▸ halike)
        generalize harg' : l'.chosenArg = chosenArg at hresembles
        cases hresembles
        obtain ⟨s', w₂, hrender', hw₂, hs'⟩ := (P.render 0).again (hcall hl harg harg (hchosen hl)) hrender hlater
          (hcall hl' harg' harg halike)
        exact ⟨_, w₂, .rendered harg' hrender', hw₂, .cons (phrase_new hs') .nil⟩

/-- What a `switchUse` names or holds. -/
theorem switches_repeatable : Repeatable P.later
    (fun w (l l' : Lexem) => P.alike w (l.arg 0) (l'.arg 0) ∧ List.Forall₂ (P.alike w) (l.arg 1).items (l'.arg 1).items)
    (fun w (p p' : Option Phrase) => List.Forall₂ (Phrase.Alike (P.alike w)) p.toList p'.toList)
    (Engine.Switches b e) := by
  refine ⟨?_, ?_, ?_⟩
  · rintro l w chosen w' ⟨-, hitems⟩ h
    cases h with
    | nothing | sentence => exact P.refl w
    | used _ _ huse => exact (P.useReference_repeatable _ _ _).goesOn hitems huse
  · rintro l w chosen w' ⟨hhead, hitems⟩ h
    cases h with
    | nothing => exact .nil
    | sentence harg => exact .cons (phrase_sentence (harg ▸ hhead)) .nil
    | used _ _ huse => exact .cons (phrase_new ((P.useReference_repeatable _ _ _).known hitems huse)) .nil
  · rintro l w chosen w' l' w₁ ⟨-, hitems⟩ h hlater ⟨hhead', hitems'⟩
    generalize harg' : l'.arg 0 = arg at hhead'
    cases h with
    | nothing harg =>
        have hresembles := (P.likeness w₁).resembles (harg ▸ hhead')
        cases hresembles
        exact ⟨none, w₁, .nothing harg', P.refl w₁, .nil⟩
    | sentence harg =>
        rw [harg] at hhead'
        have hresembles := (P.likeness w₁).resembles hhead'
        cases hresembles
        exact ⟨_, w₁, .sentence harg', P.refl w₁, .cons (phrase_sentence hhead') .nil⟩
    | used harg hget huse =>
        have hresembles := (P.likeness w₁).resembles (harg ▸ hhead')
        cases hresembles
        obtain ⟨s', w₂, huse', hw₂, hs'⟩ := (P.useReference_repeatable _ _ _).again hitems huse hlater hitems'
        exact ⟨_, w₂, .used harg' hget huse', hw₂, .cons (phrase_new hs') .nil⟩

/-- What an `each` makes of its items. -/
theorem lists_repeatable : Repeatable P.later (fun w => Lexem.Alike (P.alike w))
    (fun w => List.Forall₂ (Phrase.Alike (P.alike w))) (Engine.Lists b) := by
  have hcall : ∀ {w : ω} {l l' : Lexem} {f f' : Identity}, l.Alike (P.alike w) l' → l.arg 1 = .render f →
      l'.arg 1 = .render f' → P.alike w (.render (f, (l.arg 0).items).1) (.render (f', (l'.arg 0).items).1) ∧
        List.Forall₂ (P.alike w) (f, (l.arg 0).items).2 (f', (l'.arg 0).items).2 := by
    intro w l l' f f' h hf hf'
    have hfunction := (P.likeness w).conformity.arg h 1
    rw [hf, hf'] at hfunction
    exact ⟨hfunction, ((P.likeness w).resembles ((P.likeness w).conformity.arg h 0)).conforms.items⟩
  refine ⟨?_, ?_, ?_⟩
  · rintro l w phrases w' hl ⟨-, f, hf, hcalls⟩
    exact (P.itemPhrases_repeatable 0).goesOn (hcall hl hf hf) hcalls
  · rintro l w phrases w' hl ⟨-, f, hf, hcalls⟩
    exact (P.itemPhrases_repeatable 0).known (hcall hl hf hf) hcalls
  · rintro l w phrases w' l' w₁ hl ⟨hitems, f, hf, hcalls⟩ hlater hl'
    have hkind : l'.arg 0 = .null ∨ ∃ i items, l'.arg 0 = .list i items := by
      have hresembles := (P.likeness w₁).resembles ((P.likeness w₁).conformity.arg hl' 0)
      generalize l'.arg 0 = arg at hresembles
      rcases hitems with harg | ⟨i, items, harg⟩ <;> rw [harg] at hresembles <;> cases hresembles
      · exact .inl rfl
      · exact .inr ⟨_, _, rfl⟩
    have hfunction : ∃ f', l'.arg 1 = .render f' := by
      have hresembles := (P.likeness w₁).resembles ((P.likeness w₁).conformity.arg hl' 1)
      generalize l'.arg 1 = arg at hresembles
      rw [hf] at hresembles
      cases hresembles
      exact ⟨_, rfl⟩
    obtain ⟨f', hf'⟩ := hfunction
    obtain ⟨phrases', w₂, hcalls', hw₂, hphrases⟩ :=
      (P.itemPhrases_repeatable 0).again (hcall hl hf hf) hcalls hlater (hcall hl' hf' hf)
    exact ⟨phrases', w₂, ⟨hkind, f', hf', hcalls'⟩, hw₂, hphrases⟩

/-- What a compound stands for. -/
theorem develops_repeatable : Repeatable P.later (fun w => Lexem.Alike (P.alike w))
    (fun w s s' => LexemsAlike (P.alike w) s.lexems s'.lexems) (Engine.Develops b e) := by
  refine ⟨?_, ?_, ?_⟩
  · rintro l w s w' hl ⟨lexicon, owner, body, -, -, hrun⟩
    exact (P.run _ _ _ _).goesOn hl.args hrun
  · rintro l w s w' hl ⟨lexicon, owner, body, -, -, hrun⟩
    exact (P.run _ _ _ _).known hl.args hrun
  · rintro l w s w' l' w₁ hl ⟨lexicon, owner, body, hget, hresolve, hrun⟩ hlater hl'
    obtain ⟨s', w₂, hrun', hw₂, hs'⟩ := (P.run _ _ _ _).again hl.args hrun hlater hl'.args
    exact ⟨s', w₂, ⟨lexicon, owner, body, hl'.space ▸ hget, by rw [hl'.name]; exact hresolve, hrun'⟩, hw₂, hs'⟩

/-- What a lexem unfolds to can be repeated, for every lexem that serves in its place. -/
theorem unfolds_repeatable : Repeatable P.later (fun w => e.Serves (P.alike w))
    (fun w => List.Forall₂ (Phrase.Alike (P.alike w))) (Engine.Unfolds b e) := by
  have hpacks : ∀ {l : Lexem} {i : Option Instruction}, e.instruction? l = i → i ≠ some .switchUse →
      i ≠ some .execute → e.packs l = false := by
    rintro l _ rfl hswitch hexecute
    simp [Engine.packs, hswitch, hexecute]
  have hpacked : ∀ {l : Lexem}, e.instruction? l = some .switchUse ∨ e.instruction? l = some .execute →
      e.packs l = true := by
    intro l h
    simpa [Engine.packs] using h
  refine ⟨?_, ?_, ?_⟩
  · intro l w phrases w' hl h
    cases h with
    | foreign | children | still => exact P.refl w
    | developed _ hword hdevelops =>
        exact (P.develops_repeatable e).goesOn (hl.alike (hpacks hword (by simp) (by simp))) hdevelops
    | chosen _ hword hchooses =>
        exact P.chooses_repeatable.goesOn (hl.alike (hpacks hword (by simp) (by simp))) hchooses
    | switched _ hword hswitches => exact (P.switches_repeatable e).goesOn (hl.packed (hpacked (.inl hword))) hswitches
    | listed _ hword hlists => exact P.lists_repeatable.goesOn (hl.alike (hpacks hword (by simp) (by simp))) hlists
    | @called callback _ _ hword hcallback hcall =>
        obtain ⟨hhead, hitems⟩ := hl.packed (hpacked (.inr hword))
        rw [hcallback] at hhead
        exact P.callback.goesOn (i := (callback, (l.arg 1).items)) (x := ()) ⟨hhead, hitems⟩ hcall
  · intro l w phrases w' hl h
    cases h with
    | foreign | called | still => exact .nil
    | developed _ hword hdevelops =>
        exact .cons (phrase_new ((P.develops_repeatable e).known (hl.alike (hpacks hword (by simp) (by simp)))
          hdevelops)) .nil
    | children _ hword hphrases =>
        have halike := hl.alike (hpacks hword (by simp) (by simp))
        obtain ⟨phrases', hphrases', hknown⟩ :=
          P.childPhrases_again e rfl hphrases ((P.likeness w).conformity.children halike)
        rwa [Engine.childPhrases_unique hphrases' hphrases] at hknown
    | chosen _ hword hchooses =>
        exact P.chooses_repeatable.known (hl.alike (hpacks hword (by simp) (by simp))) hchooses
    | switched _ hword hswitches => exact (P.switches_repeatable e).known (hl.packed (hpacked (.inl hword))) hswitches
    | listed _ hword hlists => exact P.lists_repeatable.known (hl.alike (hpacks hword (by simp) (by simp))) hlists
  · intro l w phrases w' l' w₁ hl h hlater hl'
    have hword' : e.instruction? l' = e.instruction? l := Engine.instruction_congr hl'.space hl'.name
    have hspace' : ∀ {t : Bool}, e.isTarget l.space = t → e.isTarget l'.space = t := fun h => hl'.space ▸ h
    cases h with
    | foreign hspace => exact ⟨[], w₁, .foreign (hspace' hspace), P.refl w₁, .nil⟩
    | still hspace hword hstill =>
        exact ⟨[], w₁, .still (hspace' hspace) (hword'.trans hword) hstill, P.refl w₁, .nil⟩
    | developed hspace hword hdevelops =>
        have halike := hl.alike (hpacks hword (by simp) (by simp))
        have halike' := hl'.alike (hpacks (hword'.trans hword) (by simp) (by simp))
        obtain ⟨s', w₂, hdevelops', hw₂, hs'⟩ := (P.develops_repeatable e).again halike hdevelops hlater halike'
        exact ⟨_, w₂, .developed (hspace' hspace) (hword'.trans hword) hdevelops', hw₂,
          .cons (phrase_new hs') .nil⟩
    | children hspace hword hphrases =>
        have halike' := hl'.alike (hpacks (hword'.trans hword) (by simp) (by simp))
        obtain ⟨phrases', hphrases', halike⟩ :=
          P.childPhrases_again e hl'.space hphrases ((P.likeness w₁).conformity.children halike')
        exact ⟨phrases', w₁, .children (hspace' hspace) (hword'.trans hword) hphrases', P.refl w₁, halike⟩
    | chosen hspace hword hchooses =>
        have halike := hl.alike (hpacks hword (by simp) (by simp))
        have halike' := hl'.alike (hpacks (hword'.trans hword) (by simp) (by simp))
        obtain ⟨chosen', w₂, hchooses', hw₂, hphrases⟩ := P.chooses_repeatable.again halike hchooses hlater halike'
        exact ⟨_, w₂, .chosen (hspace' hspace) (hword'.trans hword) hchooses', hw₂, hphrases⟩
    | switched hspace hword hswitches =>
        obtain ⟨chosen', w₂, hswitches', hw₂, hphrases⟩ := (P.switches_repeatable e).again
          (hl.packed (hpacked (.inl hword))) hswitches hlater (hl'.packed (hpacked (.inl (hword'.trans hword))))
        exact ⟨_, w₂, .switched (hspace' hspace) (hword'.trans hword) hswitches', hw₂, hphrases⟩
    | listed hspace hword hlists =>
        have halike := hl.alike (hpacks hword (by simp) (by simp))
        have halike' := hl'.alike (hpacks (hword'.trans hword) (by simp) (by simp))
        obtain ⟨phrases', w₂, hlists', hw₂, hphrases⟩ := P.lists_repeatable.again halike hlists hlater halike'
        exact ⟨_, w₂, .listed (hspace' hspace) (hword'.trans hword) hlists', hw₂, hphrases⟩
    | @called callback _ hspace hword hcallback hcall =>
        obtain ⟨hhead, hitems⟩ := hl.packed (hpacked (.inr hword))
        obtain ⟨hhead', hitems'⟩ := hl'.packed (hpacked (.inr (hword'.trans hword)))
        generalize harg' : l'.arg 0 = arg at hhead'
        rw [hcallback] at hhead hhead'
        have hresembles := (P.likeness w₁).resembles hhead'
        cases hresembles with
        | @callback callback' =>
        have hlike' : P.alike w₁ (.callback (callback', (l'.arg 1).items).1) (.callback callback) ∧
            List.Forall₂ (P.alike w₁) (callback', (l'.arg 1).items).2 (l.arg 1).items := ⟨hhead', hitems'⟩
        obtain ⟨_, w₂, hcall', hw₂, -⟩ := P.callback.again (i := (callback, (l.arg 1).items)) (x := ())
          ⟨hhead, hitems⟩ hcall hlater hlike'
        exact ⟨[], w₂, .called (hspace' hspace) (hword'.trans hword) harg' hcall', hw₂, .nil⟩

end Purity

/-- The phrase that an output came of. -/
def Rendered.phrase (r : Rendered) : Phrase := ⟨r.identity, r.sentence⟩

namespace Purity

variable {b : Behaviour ω} (P : Purity b) (e : Engine)

/-- A lexem, and every other that serves in its place, unfolds to phrases like these from a world on. -/
def Yields (w : ω) (lexem : Lexem) (phrases : List Phrase) : Prop :=
  ∀ lexem' w₁, P.later w w₁ → e.Serves (P.alike w₁) lexem' lexem →
    ∃ phrases' w₂, e.Unfolds b lexem' w₁ phrases' w₂ ∧ P.later w₁ w₂ ∧
      List.Forall₂ (Phrase.Alike (P.alike w₂)) phrases' phrases

variable {P e} {w w' : ω} {lexem lexem' : Lexem} {phrases phrases' : List Phrase}

theorem phrases_mono (h : P.later w w') (hphrases : List.Forall₂ (Phrase.Alike (P.alike w)) phrases phrases') :
    List.Forall₂ (Phrase.Alike (P.alike w')) phrases phrases' := hphrases.imp fun _ _ => phrase_mono h

theorem phrases_trans {phrases'' : List Phrase} (h : List.Forall₂ (Phrase.Alike (P.alike w)) phrases phrases')
    (h' : List.Forall₂ (Phrase.Alike (P.alike w)) phrases' phrases'') :
    List.Forall₂ (Phrase.Alike (P.alike w)) phrases phrases'' :=
  forall₂_trans (fun _ _ _ hp hp' => ⟨(P.likeness w).lexems_trans hp.lexems hp'.lexems, hp.named⟩) h h'

theorem yields_of_unfolds (hknown : lexem.Alike (P.alike w) lexem) (h : e.Unfolds b lexem w phrases w') :
    P.later w w' ∧ List.Forall₂ (Phrase.Alike (P.alike w')) phrases phrases ∧ P.Yields e w' lexem phrases := by
  have hserves : e.Serves (P.alike w) lexem lexem := .of_alike (P.likeness w) hknown
  exact ⟨(P.unfolds_repeatable e).goesOn hserves h, (P.unfolds_repeatable e).known hserves h,
    fun _ _ hlater hserves' => (P.unfolds_repeatable e).again hserves h hlater hserves'⟩

namespace Yields

theorem mono (h : P.Yields e w lexem phrases) (hlater : P.later w w') : P.Yields e w' lexem phrases :=
  fun l w₁ hw₁ hserves => h l w₁ (P.trans hlater hw₁) hserves

theorem serve (h : P.Yields e w lexem phrases) (hserves : e.Serves (P.alike w) lexem' lexem) :
    P.Yields e w lexem' phrases := fun l w₁ hw₁ hserves' =>
  h l w₁ hw₁ (hserves'.trans (P.likeness w₁) (hserves.mono fun _ _ => P.mono hw₁))

theorem alike (h : P.Yields e w lexem phrases)
    (hphrases : List.Forall₂ (Phrase.Alike (P.alike w)) phrases phrases') : P.Yields e w lexem phrases' := by
  intro l w₁ hw₁ hserves
  obtain ⟨phrases₂, w₂, hunfolds, hw₂, halike⟩ := h l w₁ hw₁ hserves
  exact ⟨phrases₂, w₂, hunfolds, hw₂, phrases_trans halike (phrases_mono (P.trans hw₁ hw₂) hphrases)⟩

end Yields

end Purity

end Parlance
