import Mathlib.Data.List.Forall2
import Parlance.Engine.Instruction

/-! Arguments that are alike. Identities are drawn anew whenever a sentence is built, so two sentences that
say the same are hardly ever made of the same arguments. What counts as alike is left open; all that is asked
is that arguments which are alike have the same form one level down, with numbers compared as numbers are.
Everything that the engine reads off its arguments without calling anything is then the same. -/

namespace Parlance

namespace Number

variable {a b : Number}

/-- A number without the sign of zero. -/
def canonical (n : Number) : Number := if n.isZero then zero else n

theorem canonical_of_equals (h : a.equals b = true) : a.canonical = b.canonical := by
  simp only [equals, Bool.and_eq_true, Bool.or_eq_true, decide_eq_true_eq] at h
  rcases h.2 with hbits | ⟨ha, hb⟩
  · have heq : a = b := by
      cases a
      cases b
      exact congrArg Number.mk hbits
    rw [heq]
  · rw [canonical, canonical, if_pos ha, if_pos hb]

theorem not_isNaN_of_isZero (h : a.isZero = true) : a.isNaN = false := by
  rw [isZero, decide_eq_true_eq] at h
  rw [isNaN, h]
  exact decide_eq_false (Nat.not_lt_zero _)

/-- Numbers that agree but for the sign of zero are equal as numbers, unless they are none. -/
theorem equals_of_canonical (ha : a.isNaN = false) (h : a.canonical = b.canonical) : a.equals b = true := by
  have hsame : a = b ∨ a.isZero = true ∧ b.isZero = true := by
    unfold canonical at h
    have hzero : zero.isZero = true := rfl
    split at h <;> split at h <;> grind
  rcases hsame with rfl | ⟨hza, hzb⟩
  · simp [equals, ha]
  · simp [equals, hza, hzb, not_isNaN_of_isZero]

theorem isNaN_of_canonical (h : a.canonical = b.canonical) : a.isNaN = b.isNaN := by
  have hcanonical : ∀ n : Number, n.canonical.isNaN = n.isNaN := by
    intro n
    unfold canonical
    split
    · next hzero => rw [not_isNaN_of_isZero hzero]; rfl
    · rfl
  rw [← hcanonical a, ← hcanonical b, h]

/-- Zero is written without its sign. -/
theorem toText_of_isZero {n : Number} (hzero : n.isZero = true) : n.toText = digitsText 0 := by
  have hmagnitude : n.magnitudeBits = 0 := by simpa [isZero] using hzero
  have hunits : n.units = 0 := by simp [units, significand, exponentField, fractionField, hmagnitude]
  have hnan := not_isNaN_of_isZero hzero
  have hinfinite : n.isInfinite = false := by
    rw [isInfinite, hmagnitude]
    rfl
  have hwhole : n.isWhole = true := by
    rw [isWhole, isFinite, hmagnitude, hunits, Nat.zero_mod]
    rfl
  have hpart : n.wholePart = 0 := by rw [wholePart, hunits, Nat.zero_div]
  simp [toText, hnan, hinfinite, hwhole, hpart, hzero]

theorem toText_canonical (n : Number) : n.canonical.toText = n.toText := by
  unfold canonical
  split
  · next hzero => rw [toText_of_isZero hzero, toText_of_isZero rfl]
  · rfl

theorem isTruthy_canonical (n : Number) : n.canonical.isTruthy = n.isTruthy := by
  unfold canonical
  split
  · next hzero =>
    rw [isTruthy, isTruthy, hzero]
    rfl
  · rfl

end Number

/-- A scalar without the sign of zero. -/
def Scalar.canonical : Scalar → Scalar
  | .number n => .number n.canonical
  | other => other

theorem Scalar.canonical_of_equals {a b : Scalar} (h : a.equals b = true) : a.canonical = b.canonical := by
  cases a <;> cases b <;> simp only [equals, decide_eq_true_eq, Bool.false_eq_true] at h
  case number.number => rw [canonical, canonical, Number.canonical_of_equals h]
  all_goals first | rfl | rw [h]

/-- Scalars that agree but for the sign of zero are equal, as one of them is to itself. -/
theorem Scalar.equals_of_canonical {a b : Scalar} (ha : a.equals a = true) (h : a.canonical = b.canonical) :
    a.equals b = true := by
  cases a <;> cases b <;> simp only [canonical, number.injEq, reduceCtorEq, bool.injEq, str.injEq] at h
  case number.number =>
    rw [equals, Number.equals, Bool.and_eq_true] at ha
    rw [equals]
    exact Number.equals_of_canonical (by simpa using ha.1) h
  all_goals simp [equals, h]

/-- Two arguments of the same form, whose parts are related. -/
inductive Resembles (R : Arg → Arg → Prop) : Arg → Arg → Prop
  | null : Resembles R .null .null
  | bool {value : Bool} : Resembles R (.bool value) (.bool value)
  | number {a b : Number} (hequals : a.equals b = true) : Resembles R (.number a) (.number b)
  | str {value : String} : Resembles R (.str value) (.str value)
  | sentence {i i' : Identity} {s s' : Sentence}
      (hlexems : List.Forall₂ (fun l l' : Lexem => l.space = l'.space ∧ l.name = l'.name ∧
        List.Forall₂ R l.args l'.args) s.lexems s'.lexems) : Resembles R (.sentence i s) (.sentence i' s')
  | list {i i' : Identity} {items items' : List Arg} (hitems : List.Forall₂ R items items') :
      Resembles R (.list i items) (.list i' items')
  | data {i i' : Identity} : Resembles R (.data i) (.data i')
  | render {i i' : Identity} : Resembles R (.render i) (.render i')
  | handler {i i' : Identity} : Resembles R (.handler i) (.handler i')
  | callback {i i' : Identity} : Resembles R (.callback i) (.callback i')
  | component {f f' : Factory} : Resembles R (.component f) (.component f')
  | hook {i i' : Identity} : Resembles R (.hook i) (.hook i')

/-- Two arguments of the same form, as far as it shows without looking into sentences. -/
inductive Conforms (R : Arg → Arg → Prop) : Arg → Arg → Prop
  | null : Conforms R .null .null
  | bool {value : Bool} : Conforms R (.bool value) (.bool value)
  | number {a b : Number} (hcanonical : a.canonical = b.canonical) : Conforms R (.number a) (.number b)
  | str {value : String} : Conforms R (.str value) (.str value)
  | sentence {i i' : Identity} {s s' : Sentence} : Conforms R (.sentence i s) (.sentence i' s')
  | list {i i' : Identity} {items items' : List Arg} (hitems : List.Forall₂ R items items') :
      Conforms R (.list i items) (.list i' items')
  | data {i i' : Identity} : Conforms R (.data i) (.data i')
  | render {i i' : Identity} : Conforms R (.render i) (.render i')
  | handler {i i' : Identity} : Conforms R (.handler i) (.handler i')
  | callback {i i' : Identity} : Conforms R (.callback i) (.callback i')
  | component {f f' : Factory} : Conforms R (.component f) (.component f')
  | hook {i i' : Identity} : Conforms R (.hook i) (.hook i')

/-- A relation between arguments of which all that is asked of them without looking into sentences agrees. -/
structure Conformity (R : Arg → Arg → Prop) : Prop where
  null : R .null .null
  conforms : ∀ {a a'}, R a a' → Conforms R a a'

/-- A relation between arguments of the same form. -/
structure Similarity (R : Arg → Arg → Prop) : Prop where
  null : R .null .null
  resembles : ∀ {a a'}, R a a' → Resembles R a a'

/-- A way in which arguments can be alike. -/
structure Likeness (R : Arg → Arg → Prop) : Prop extends Similarity R where
  symm : ∀ {a a'}, R a a' → R a' a
  trans : ∀ {a a' a''}, R a a' → R a' a'' → R a a''

/-- Two lexems with the same word and arguments that are alike. -/
structure Lexem.Alike (R : Arg → Arg → Prop) (l l' : Lexem) : Prop where
  space : l.space = l'.space
  name : l.name = l'.name
  args : List.Forall₂ R l.args l'.args

/-- Lexems that are alike one by one. -/
def LexemsAlike (R : Arg → Arg → Prop) : List Lexem → List Lexem → Prop := List.Forall₂ (Lexem.Alike R)

variable {R R' : Arg → Arg → Prop}

theorem Lexem.Alike.mono (hmono : ∀ a a', R a a' → R' a a') {l l' : Lexem} (h : l.Alike R l') : l.Alike R' l' :=
  ⟨h.space, h.name, h.args.imp hmono⟩

theorem LexemsAlike.mono (hmono : ∀ a a', R a a' → R' a a') {ls ls' : List Lexem} (h : LexemsAlike R ls ls') :
    LexemsAlike R' ls ls' := List.Forall₂.imp (fun _ _ hl => hl.mono hmono) h

theorem Resembles.sentence_lexems {i i' : Identity} {s s' : Sentence}
    (h : Resembles R (.sentence i s) (.sentence i' s')) : LexemsAlike R s.lexems s'.lexems := by
  cases h with
  | sentence hlexems => exact hlexems.imp fun _ _ hl => ⟨hl.1, hl.2.1, hl.2.2⟩

namespace Conforms

variable {a a' : Arg}

theorem kind_eq (h : Conforms R a a') : a.kind = a'.kind := by cases h <;> rfl

theorem isTruthy_eq (h : Conforms R a a') : a.isTruthy = a'.isTruthy := by
  cases h with
  | number hcanonical =>
      rw [Arg.isTruthy, Arg.isTruthy, ← Number.isTruthy_canonical, hcanonical, Number.isTruthy_canonical]
  | _ => rfl

theorem items (h : Conforms R a a') : List.Forall₂ R a.items a'.items := by
  cases h with
  | list hitems => exact hitems
  | _ => exact .nil

/-- The scalars of two arguments agree but for the sign of zero. -/
theorem toScalar_eq (h : Conforms R a a') :
    a.toScalar?.map Scalar.canonical = a'.toScalar?.map Scalar.canonical := by
  cases h with
  | number hcanonical => simp [Arg.toScalar?, Scalar.canonical, hcanonical]
  | _ => rfl

end Conforms

namespace Resembles

variable {a a' : Arg}

theorem conforms (h : Resembles R a a') : Conforms R a a' := by
  cases h with
  | number hequals => exact .number (Number.canonical_of_equals hequals)
  | list hitems => exact .list hitems
  | _ => constructor

/-- An argument that resembles a scalar is an equal one. -/
theorem scalar_equals (h : Resembles R a' a) {value : Scalar} (hvalue : a.toScalar? = some value) :
    ∃ value', a'.toScalar? = some value' ∧ value'.equals value = true ∧ a'.same a = true := by
  cases h <;> cases hvalue
  case number hequals => exact ⟨_, rfl, hequals, hequals⟩
  all_goals exact ⟨_, rfl, by simp [Scalar.equals], by simp [Arg.same]⟩

end Resembles

theorem Lexem.scalarArg_eq_ok {l : Lexem} {index : Nat} {value : Scalar} :
    l.scalarArg index = .ok value ↔ (l.arg index).toScalar? = some value := by
  unfold Lexem.scalarArg
  cases (l.arg index).toScalar? with
  | some => simp
  | none => simp [Lexem.invalid]

section Lists

variable {α : Type} {S : α → α → Prop}

theorem forall₂_symm {as as' : List α} (hsymm : ∀ a a', S a a' → S a' a) (h : List.Forall₂ S as as') :
    List.Forall₂ S as' as := by
  induction h with
  | nil => exact .nil
  | cons head _ ih => exact .cons (hsymm _ _ head) ih

theorem forall₂_trans {as as' as'' : List α} (htrans : ∀ a a' a'', S a a' → S a' a'' → S a a'')
    (h : List.Forall₂ S as as') (h' : List.Forall₂ S as' as'') : List.Forall₂ S as as'' := by
  induction h generalizing as'' with
  | nil => exact h'
  | cons head _ ih =>
      cases h' with
      | cons head' tail' => exact .cons (htrans _ _ _ head head') (ih tail')

end Lists

namespace Conformity

set_option linter.unusedSectionVars false

variable (hR : Conformity R)
include hR

mutual

theorem toText_eq : ∀ {a a' : Arg}, R a a' → a.toText = a'.toText
  | .list _ items, _, h => by
      cases hR.conforms h with
      | list hitems => rw [Arg.toText, Arg.toText, textsOf_eq hitems]
  | .number n, _, h => by
      cases hR.conforms h with
      | number hcanonical =>
          rw [Arg.toText, Arg.toText, ← Number.toText_canonical, hcanonical, Number.toText_canonical]
  | .null, _, h | .bool _, _, h | .str _, _, h | .sentence _ _, _, h | .data _, _, h | .render _, _, h
  | .handler _, _, h | .callback _, _, h | .component _, _, h | .hook _, _, h => by
      cases hR.conforms h
      rfl

theorem textsOf_eq : ∀ {as as' : List Arg}, List.Forall₂ R as as' → Arg.textsOf as = Arg.textsOf as'
  | [], _, h => by
      cases h
      rfl
  | a :: as, _, h => by
      cases h with
      | cons head tail => rw [Arg.textsOf, Arg.textsOf, toText_eq head, textsOf_eq tail]

end

theorem argAt {args args' : List Arg} (h : List.Forall₂ R args args') (index : Nat) :
    R (argAt args index) (argAt args' index) := by
  induction h generalizing index with
  | nil => exact hR.null
  | cons head _ ih =>
      cases index with
      | zero => exact head
      | succ index => exact ih index

section Lexem

variable {l l' : Lexem} (h : l.Alike R l')
include h

theorem arg (index : Nat) : R (l.arg index) (l'.arg index) := hR.argAt h.args index

theorem stringArg_eq (index : Nat) : l.stringArg index = l'.stringArg index := by
  have harg := hR.conforms (hR.arg h index)
  have hinvalid : (l.invalid index "a string" : Except PassError String) = l'.invalid index "a string" := by
    rw [Lexem.invalid, Lexem.invalid, h.name, harg.kind_eq]
  unfold Lexem.stringArg
  rw [hinvalid]
  generalize l.arg index = a, l'.arg index = a' at harg
  cases harg <;> rfl

theorem presentClass_eq : l.presentClass? = l'.presentClass? := by
  have hlength : l.args.length = l'.args.length := h.args.length_eq
  rw [Lexem.presentClass?, Lexem.presentClass?, hlength, hR.toText_eq (hR.arg h 0),
    (hR.conforms (hR.arg h 1)).isTruthy_eq]

theorem splitClasses_eq : l.splitClasses = l'.splitClasses := by
  rw [Lexem.splitClasses, Lexem.splitClasses, hR.toText_eq (hR.arg h 0)]

theorem children : List.Forall₂ R l.children l'.children := by
  have harg := hR.arg h 1
  unfold Lexem.children
  generalize l.arg 1 = a, l'.arg 1 = a' at harg
  cases hR.conforms harg with
  | null => exact .nil
  | list hitems => exact hitems
  | _ => exact .cons harg .nil

end Lexem

end Conformity

theorem Similarity.conformity (hR : Similarity R) : Conformity R := ⟨hR.null, fun h => (hR.resembles h).conforms⟩

namespace Likeness

variable (hR : Likeness R)
include hR

theorem args_symm {as as' : List Arg} (h : List.Forall₂ R as as') : List.Forall₂ R as' as :=
  forall₂_symm (fun _ _ => hR.symm) h

theorem args_trans {as as' as'' : List Arg} (h : List.Forall₂ R as as') (h' : List.Forall₂ R as' as'') :
    List.Forall₂ R as as'' := forall₂_trans (fun _ _ _ => hR.trans) h h'

theorem lexem_symm {l l' : Lexem} (h : l.Alike R l') : l'.Alike R l :=
  ⟨h.space.symm, h.name.symm, hR.args_symm h.args⟩

theorem lexem_trans {l l' l'' : Lexem} (h : l.Alike R l') (h' : l'.Alike R l'') : l.Alike R l'' :=
  ⟨h.space.trans h'.space, h.name.trans h'.name, hR.args_trans h.args h'.args⟩

theorem lexems_trans {ls ls' ls'' : List Lexem} (h : LexemsAlike R ls ls') (h' : LexemsAlike R ls' ls'') :
    LexemsAlike R ls ls'' := forall₂_trans (fun _ _ _ => hR.lexem_trans) h h'

end Likeness

end Parlance
