import Mathlib.Data.List.Forall2
import Parlance.Engine.Output
import Parlance.Proofs.Engine.Holding

/-! Slots and the strategies that go on with them. Every strategy leaves slots of one kind, when it renders and when it
diffs, and a word has the same strategy in every pass of an engine; so a diff always comes upon a slot of the kind that
it can go on with. To say that a pass has no way to the fall-back, and where its objections come from, what it says of
two lexems is left open: whatever it would say at a fall-back, it does the same, and if it ends by finding sentences
that are not congruent, it does so at two lexems that have another word or another namespace. -/

namespace Parlance

open Pass

/-- Whether a slot is of the kind that a strategy leaves: that of an instruction, or development if there is none. -/
def Slot.isOf : Slot → Option Instruction → Bool
  | .compound _, none => true
  | .element .., some .tag => true
  | .text _, some .text => true
  | .attribute, some i => i ∈ [.attr, .prop, .data, .style, .cssClass, .classes, .id]
  | .listener _, some .on => true
  | .branch .., some i => i ∈ [.ifElse, .switchUse]
  | .each .., some .each => true
  | .raw .., some .html => true
  | .hook _, some .onDom => true
  | .effect, some i => i ∈ [.execute, .ref]
  | .component _, some .component => true
  | _, _ => false

/-- Whether the diff of a strategy goes on with a slot, and has no need of its fall-back. -/
def Slot.serves : Slot → Option Instruction → Bool
  | slot, some i => i ∈ [.attr, .prop, .data, .style, .cssClass, .classes, .id, .execute, .ref] || slot.isOf (some i)
  | slot, none => slot.isOf none

/-- A strategy goes on with what it has left. -/
theorem Slot.serves_of_isOf {slot : Slot} {strategy : Option Instruction} (h : slot.isOf strategy = true) :
    slot.serves strategy = true := by
  cases strategy with
  | none => exact h
  | some i => simp only [serves, h, Bool.or_true]

namespace Engine

/-- A slot is of the kind that the strategy of a lexem leaves. Words of other namespaces are passed over. -/
def Leaves (e : Engine) (lexem : Lexem) (slot : Slot) : Prop :=
  if e.isTarget lexem.space then slot.isOf (e.instruction? lexem) = true else slot = .skipped

/-- An output with one slot for each lexem, of the kind that its strategy leaves, down to any depth. -/
inductive Fitted (e : Engine) : Rendered → Prop
  | mk {identity : Option Identity} {s : Sentence} {slots : List Slot} (hslots : List.Forall₂ e.Leaves s.lexems slots)
      (hparts : ∀ slot ∈ slots, ∀ part ∈ slot.parts, Fitted e part) : Fitted e ⟨identity, s, slots⟩

/-- A slot as it is kept for a lexem, with outputs inside it that fit. -/
def Keeps (e : Engine) (lexem : Lexem) (slot : Slot) : Prop := e.Leaves lexem slot ∧ ∀ part ∈ slot.parts, e.Fitted part

theorem Fitted.keeps {e : Engine} {r : Rendered} (h : e.Fitted r) : List.Forall₂ e.Keeps r.sentence.lexems r.slots := by
  obtain @⟨identity, s, slots, hslots, hparts⟩ := h
  change List.Forall₂ e.Keeps s.lexems slots
  generalize s.lexems = lexems at hslots
  induction hslots with
  | nil => exact .nil
  | cons hslot _ ih =>
      obtain ⟨hown, hrest⟩ := List.forall_mem_cons.mp hparts
      exact .cons ⟨hslot, hown⟩ (ih hrest)

theorem Fitted.of_keeps {e : Engine} {identity : Option Identity} {s : Sentence} {slots : List Slot}
    (h : List.Forall₂ e.Keeps s.lexems slots) : e.Fitted ⟨identity, s, slots⟩ := by
  refine .mk (h.imp fun _ _ hkeeps => hkeeps.1) ?_
  generalize s.lexems = lexems at h
  induction h with
  | nil => nofun
  | cons hslot _ ih => exact List.forall_mem_cons.mpr ⟨hslot.2, ih⟩

/-- What a strategy leaves depends on the word and its namespace only. -/
theorem Keeps.congruent {e : Engine} {lexem old : Lexem} {slot : Slot} (h : e.Keeps old slot)
    (hcongruent : lexem.isCongruent old = true) : e.Keeps lexem slot := by
  obtain ⟨hname, hspace⟩ : lexem.name = old.name ∧ lexem.space = old.space := by simpa [Lexem.isCongruent] using hcongruent
  have hword : e.instruction? lexem = e.instruction? old := by rw [instruction?, instruction?, hname, hspace]
  refine ⟨?_, h.2⟩
  rw [Leaves, hword, hspace]
  exact h.1

/-- All components are of the engine, and their outputs fit. -/
def Sound {ω : Type} (e : Engine) (σ : Stage ω) : Prop :=
  ∀ (n : Nat) (i : Instance), σ.instances[n]? = some i → i.engine = e ∧ ∀ r, i.developed = some r → e.Fitted r

end Engine

/-- What a diff says of two lexems of two sentences when they are not congruent, and when there is nothing but the
fall-back. -/
structure Objections where
  clash : Sentence → Sentence → Nat → Lexem → Lexem → PassError
  stray : Sentence → Sentence → Nat → Lexem → Lexem → PassError

/-- What the engine says is the same in both cases. -/
def Objections.plain : Objections :=
  ⟨fun _ _ index lexem old => .incongruent index old.qualified lexem.qualified,
    fun _ _ index lexem old => .incongruent index old.qualified lexem.qualified⟩

variable {ω : Type} (b : Behaviour ω)

namespace Engine

section Objecting

variable (q : Objections) (render : Cursor → Phrase → Pass ω Rendered)
variable (diff : Engine → Cursor → Phrase → Rendered → Pass ω Rendered)

/-- A diff of one lexem that says something of its own instead of falling back. -/
def diffLexemBy (stray : PassError) (e : Engine) (c : Cursor) (index : Nat) (lexem old : Lexem) (slot : Slot) :
    Pass ω Slot :=
  if e.isTarget lexem.space && !lexem.args.isEmpty && !slot.serves (e.instruction? lexem) then fail stray
  else diffLexem b render diff e c index lexem old slot

/-- Lexems of two sentences, from an index on. -/
def diffLexemsBy (s s' : Sentence) (e : Engine) (c : Cursor) (index : Nat) :
    List Lexem → List Lexem → List Slot → Pass ω (List Slot)
  | lexem :: lexems, old :: olds, slot :: slots => do
      unless lexem.isCongruent old do fail (q.clash s s' index lexem old)
      let slot ← diffLexemBy b render diff (q.stray s s' index lexem old) e c index lexem old slot
      pure (slot :: (← diffLexemsBy s s' e c (index + 1) lexems olds slots))
  | _, _, _ => pure []

def diffPhraseBy (e : Engine) (c : Cursor) (phrase : Phrase) (previous : Rendered) : Pass ω Rendered := do
  if e.reuses phrase previous then pure previous
  else
    let s := phrase.sentence
    let old := previous.sentence
    if s.length ≠ old.length then fail (.lengthMismatch old.length s.length)
    let slots ← diffLexemsBy b q render diff s old e c 0 s.lexems old.lexems previous.slots
    pure ⟨phrase.identity, s, slots⟩

def diffWithinBy : Nat → Engine → Cursor → Phrase → Rendered → Pass ω Rendered
  | 0, _, _, _, _ => throw (.trouble .exhausted)
  | depth + 1, e, c, phrase, previous =>
      diffPhraseBy b q (renderWithin b depth e) (diffWithinBy depth) e c phrase previous

/-- A diff that leaves it open what is said of two lexems. -/
def diffBy (e : Engine) (parent : NodeId) (s : Sentence) (previous : Rendered) : Pass ω Rendered :=
  diffWithinBy b q depthLimit e (Cursor.root parent) (.new s) previous

def updateComponentBy (id : InstanceId) : Pass ω Unit := update b (diffWithinBy b q depthLimit) id

end Objecting

section Plain

variable {b} {render : Cursor → Phrase → Pass ω Rendered} {diff : Engine → Cursor → Phrase → Rendered → Pass ω Rendered}

/-- A slot with which the strategy does not go on leads to the fall-back. -/
theorem diffLexem_stray {e : Engine} {lexem : Lexem} {slot : Slot} (hspace : e.isTarget lexem.space = true)
    (hargs : lexem.args.isEmpty = false) (hslot : slot.serves (e.instruction? lexem) = false) (c : Cursor) (index : Nat)
    (old : Lexem) : diffLexem b render diff e c index lexem old slot = ofExcept (lexem.incongruent old index) := by
  unfold diffLexem
  rw [hspace, hargs]
  cases hword : e.instruction? lexem with
  | none =>
      rw [hword] at hslot
      cases slot <;> first | rfl | cases hslot
  | some i =>
      rw [hword] at hslot
      cases i <;> cases slot <;> first | rfl | cases hslot

theorem diffLexemBy_plain (e : Engine) (c : Cursor) (index : Nat) (lexem old : Lexem) (slot : Slot) :
    diffLexemBy b render diff (.incongruent index old.qualified lexem.qualified) e c index lexem old slot =
      diffLexem b render diff e c index lexem old slot := by
  unfold diffLexemBy
  split
  · next hstray =>
    simp only [Bool.and_eq_true, Bool.not_eq_true'] at hstray
    rw [diffLexem_stray hstray.1.1 hstray.1.2 hstray.2]
    rfl
  · rfl

theorem diffLexemsBy_plain (s s' : Sentence) (e : Engine) (c : Cursor) (index : Nat) (lexems olds : List Lexem)
    (slots : List Slot) : diffLexemsBy b .plain render diff s s' e c index lexems olds slots =
      diffLexems b render diff e c index lexems olds slots := by
  induction lexems generalizing index olds slots with
  | nil => rfl
  | cons lexem lexems ih =>
      cases olds with
      | nil => rfl
      | cons old olds =>
          cases slots with
          | nil => rfl
          | cons slot slots =>
              rw [diffLexemsBy, diffLexems]
              simp only [ih]
              rw [Objections.plain]
              simp only [diffLexemBy_plain]
              rfl

theorem diffWithinBy_plain (depth : Nat) : diffWithinBy b .plain depth = diffWithin b depth := by
  induction depth with
  | zero => rfl
  | succ depth ih =>
      funext e c phrase previous
      rw [diffWithinBy, diffWithin, ih]
      unfold diffPhraseBy diffPhrase
      simp only [diffLexemsBy_plain]

end Plain

end Engine

end Parlance
