import Parlance.Proofs.Sentence.Likeness
import Parlance.Script.Behaviour

/-! Twin worlds. What scripts do depends on identities only as far as these are equal to each other, and on the world
only by what stands behind identities and names. So the same script run in two worlds, on arguments that are alike but
for their identities, gives results that are alike in the same way; the identities that it draws are paired with each
other as it goes on. -/

namespace Parlance

/-- Which identity of one world stands for which of another. -/
abbrev Pairing := Identity → Identity → Prop

/-- All that is paired stays paired. -/
def Pairing.Within (ρ ρ' : Pairing) : Prop := ∀ a b, ρ a b → ρ' a b

mutual

/-- The same argument but for its identities, which are paired. -/
inductive Arg.Twin (ρ : Pairing) : Arg → Arg → Prop
  | null : Arg.Twin ρ .null .null
  | bool {value : Bool} : Arg.Twin ρ (.bool value) (.bool value)
  | number {value : Number} : Arg.Twin ρ (.number value) (.number value)
  | str {value : String} : Arg.Twin ρ (.str value) (.str value)
  | sentence {i j : Identity} {lexicon : Lexicon} {level : Level} {lexems lexems' : List Lexem} (hpaired : ρ i j)
      (hlexems : List.Forall₂ (Lexem.Twin ρ) lexems lexems') :
      Arg.Twin ρ (.sentence i ⟨lexicon, level, lexems⟩) (.sentence j ⟨lexicon, level, lexems'⟩)
  | list {i j : Identity} {items items' : List Arg} (hpaired : ρ i j)
      (hitems : List.Forall₂ (Arg.Twin ρ) items items') : Arg.Twin ρ (.list i items) (.list j items')
  | data {i j : Identity} (hpaired : ρ i j) : Arg.Twin ρ (.data i) (.data j)
  | render {i j : Identity} (hpaired : ρ i j) : Arg.Twin ρ (.render i) (.render j)
  | handler {i j : Identity} (hpaired : ρ i j) : Arg.Twin ρ (.handler i) (.handler j)
  | callback {i j : Identity} (hpaired : ρ i j) : Arg.Twin ρ (.callback i) (.callback j)
  | component {name : String} {i j : Identity} (hpaired : ρ i j) :
      Arg.Twin ρ (.component ⟨name, i⟩) (.component ⟨name, j⟩)
  | hook {i j : Identity} (hpaired : ρ i j) : Arg.Twin ρ (.hook i) (.hook j)

inductive Lexem.Twin (ρ : Pairing) : Lexem → Lexem → Prop
  | mk {space name : String} {args args' : List Arg} (hargs : List.Forall₂ (Arg.Twin ρ) args args') :
      Lexem.Twin ρ ⟨space, name, args⟩ ⟨space, name, args'⟩

end

/-- Lists of arguments that are twins one by one. -/
abbrev ArgsTwin (ρ : Pairing) : List Arg → List Arg → Prop := List.Forall₂ (Arg.Twin ρ)

/-- Sentences with twin lexems. -/
inductive Sentence.Twin (ρ : Pairing) : Sentence → Sentence → Prop
  | mk {lexicon : Lexicon} {level : Level} {lexems lexems' : List Lexem}
      (hlexems : List.Forall₂ (Lexem.Twin ρ) lexems lexems') :
      Sentence.Twin ρ ⟨lexicon, level, lexems⟩ ⟨lexicon, level, lexems'⟩

/-- The same names with twin values. -/
def NamesTwin (ρ : Pairing) : Entries Arg → Entries Arg → Prop :=
  List.Forall₂ fun entry entry' => entry.1 = entry'.1 ∧ entry.2.Twin ρ entry'.2

inductive Env.Twin (ρ : Pairing) : Env → Env → Prop
  | mk {initializer : Initializer} {names names' : Entries Arg} {args args' : List Arg} (hnames : NamesTwin ρ names names')
      (hargs : ArgsTwin ρ args args') : Env.Twin ρ ⟨initializer, names, args⟩ ⟨initializer, names', args'⟩

inductive Cell.Twin (ρ : Pairing) : Cell → Cell → Prop
  | bare : Cell.Twin ρ .bare .bare
  | record {content : Record} : Cell.Twin ρ (.record content) (.record content)
  | render {env env' : Env} {calls : List Call} {label : Option String} (henv : env.Twin ρ env') :
      Cell.Twin ρ (.render env calls label) (.render env' calls label)
  | handler {env env' : Env} {label : String} {update : Option Expr} (henv : env.Twin ρ env') :
      Cell.Twin ρ (.handler env label update) (.handler env' label update)
  | listener {label : String} : Cell.Twin ρ (.listener label) (.listener label)
  | callback {label : String} : Cell.Twin ρ (.callback label) (.callback label)
  | hook {label : String} {bare : Bool} : Cell.Twin ρ (.hook label bare) (.hook label bare)
  | factory {env env' : Env} {definition : String} {reports : Bool} (henv : env.Twin ρ env') :
      Cell.Twin ρ (.factory ⟨env, definition, reports⟩) (.factory ⟨env', definition, reports⟩)

section Mono

set_option linter.unusedSectionVars false

variable {ρ ρ' : Pairing} (hwithin : ρ.Within ρ')
include hwithin

mutual

theorem Arg.Twin.mono : ∀ {a a' : Arg}, a.Twin ρ a' → a.Twin ρ' a'
  | .sentence _ ⟨_, _, lexems⟩, _, h => by
      cases h with
      | sentence hpaired hlexems => exact .sentence (hwithin _ _ hpaired) (lexems_twin_mono hlexems)
  | .list _ items, _, h => by
      cases h with
      | list hpaired hitems => exact .list (hwithin _ _ hpaired) (args_twin_mono hitems)
  | .null, _, h | .bool _, _, h | .number _, _, h | .str _, _, h => by
      cases h
      constructor
  | .data _, _, h | .render _, _, h | .handler _, _, h | .callback _, _, h | .component _, _, h | .hook _, _, h => by
      cases h
      constructor
      exact hwithin _ _ ‹_›

theorem args_twin_mono : ∀ {as as' : List Arg}, ArgsTwin ρ as as' → ArgsTwin ρ' as as'
  | [], _, h => by
      cases h
      exact .nil
  | _ :: _, _, h => by
      cases h with
      | cons head tail => exact .cons head.mono (args_twin_mono tail)

theorem lexems_twin_mono : ∀ {ls ls' : List Lexem}, List.Forall₂ (Lexem.Twin ρ) ls ls' →
    List.Forall₂ (Lexem.Twin ρ') ls ls'
  | [], _, h => by
      cases h
      exact .nil
  | ⟨_, _, args⟩ :: _, _, h => by
      cases h with
      | cons head tail =>
          cases head with
          | mk hargs => exact .cons (.mk (args_twin_mono hargs)) (lexems_twin_mono tail)

end

theorem Sentence.Twin.mono {s s' : Sentence} (h : s.Twin ρ s') : s.Twin ρ' s' := by
  cases h with
  | mk hlexems => exact .mk (lexems_twin_mono hwithin hlexems)

theorem NamesTwin.mono {names names' : Entries Arg} (h : NamesTwin ρ names names') : NamesTwin ρ' names names' :=
  h.imp fun _ _ hentry => ⟨hentry.1, hentry.2.mono hwithin⟩

theorem Env.Twin.mono {env env' : Env} (h : env.Twin ρ env') : env.Twin ρ' env' := by
  cases h with
  | mk hnames hargs => exact .mk (hnames.mono hwithin) (args_twin_mono hwithin hargs)

theorem Cell.Twin.mono {c c' : Cell} (h : c.Twin ρ c') : c.Twin ρ' c' := by
  cases h with
  | render henv => exact .render (henv.mono hwithin)
  | handler henv => exact .handler (henv.mono hwithin)
  | factory henv => exact .factory (henv.mono hwithin)
  | _ => constructor

end Mono

section Reading

variable {ρ : Pairing}

theorem twin_conformity (ρ : Pairing) : Conformity (Arg.Twin ρ) := by
  refine ⟨.null, fun h => ?_⟩
  cases h with
  | number => exact .number rfl
  | list _ hitems => exact .list hitems
  | _ => constructor

namespace Arg.Twin

variable {a a' x x' : Arg}

theorem toText_eq (h : a.Twin ρ a') : a.toText = a'.toText := (twin_conformity ρ).toText_eq h

theorem isTruthy_eq (h : a.Twin ρ a') : a.isTruthy = a'.isTruthy := ((twin_conformity ρ).conforms h).isTruthy_eq

theorem items (h : a.Twin ρ a') : ArgsTwin ρ a.items a'.items := ((twin_conformity ρ).conforms h).items

theorem isNull_eq (h : a.Twin ρ a') : a.isNull = a'.isNull := by cases h <;> rfl

theorem asIndex_eq (h : a.Twin ρ a') : a.asIndex = a'.asIndex := by cases h <;> rfl

end Arg.Twin

theorem argAt_twin {args args' : List Arg} (h : ArgsTwin ρ args args') (index : Nat) :
    (argAt args index).Twin ρ (argAt args' index) := (twin_conformity ρ).argAt h index

theorem drop_twin {args args' : List Arg} (h : ArgsTwin ρ args args') (count : Nat) :
    ArgsTwin ρ (args.drop count) (args'.drop count) := List.forall₂_drop count h

theorem eraseIdx_twin {args args' : List Arg} (h : ArgsTwin ρ args args') (index : Nat) :
    ArgsTwin ρ (args.eraseIdx index) (args'.eraseIdx index) := by
  induction h generalizing index with
  | nil => exact .nil
  | cons head tail ih =>
      cases index with
      | zero => exact tail
      | succ index => exact .cons head (ih index)

theorem append_twin {args args' more more' : List Arg} (h : ArgsTwin ρ args args') (hmore : ArgsTwin ρ more more') :
    ArgsTwin ρ (args ++ more) (args' ++ more') := List.rel_append h hmore

theorem NamesTwin.get? {names names' : Entries Arg} (h : NamesTwin ρ names names') (name : String) :
    Option.Rel (Arg.Twin ρ) (names.get? name) (names'.get? name) := by
  induction h with
  | nil => exact .none
  | @cons entry entry' _ _ head _ ih =>
      obtain ⟨key, value⟩ := entry
      obtain ⟨key', value'⟩ := entry'
      obtain ⟨rfl, hvalue⟩ := head
      unfold Entries.get?
      split
      · exact .some hvalue
      · exact ih

theorem NamesTwin.put {names names' : Entries Arg} (h : NamesTwin ρ names names') (name : String) {value value' : Arg}
    (hvalue : value.Twin ρ value') : NamesTwin ρ (names.put name value) (names'.put name value') := by
  induction h with
  | nil => exact .cons ⟨rfl, hvalue⟩ .nil
  | @cons entry entry' _ _ head tail ih =>
      obtain ⟨key, old⟩ := entry
      obtain ⟨key', old'⟩ := entry'
      obtain ⟨rfl, hold⟩ := head
      unfold Entries.put
      split
      · exact .cons ⟨rfl, hvalue⟩ tail
      split
      · exact .cons ⟨rfl, hvalue⟩ (.cons ⟨rfl, hold⟩ tail)
      · exact .cons ⟨rfl, hold⟩ ih

theorem Sentence.Twin.append {s s' : Sentence} (h : s.Twin ρ s') (space name : String) {args args' : List Arg}
    (hargs : ArgsTwin ρ args args') : (s.append space name args).Twin ρ (s'.append space name args') := by
  cases h with
  | mk hlexems => exact .mk (List.rel_append hlexems (.cons (.mk hargs) .nil))

theorem Sentence.Twin.splice {s s' t t' : Sentence} (h : s.Twin ρ s') (ht : t.Twin ρ t') :
    (s.splice t).Twin ρ (s'.splice t') := by
  cases h with
  | mk hlexems =>
      cases ht with
      | mk hmore => exact .mk (List.rel_append hlexems hmore)

theorem Sentence.Twin.empty (ρ : Pairing) (lexicon : Lexicon) (level : Level) :
    (Sentence.empty lexicon level).Twin ρ (Sentence.empty lexicon level) := .mk .nil

end Reading

/-- The identities of two worlds are paired one to one, and what stands behind them is the same. -/
structure World.Twin (ρ : Pairing) (w w' : World) : Prop where
  functional : ∀ {a b b'}, ρ a b → ρ a b' → b = b'
  injective : ∀ {a a' b}, ρ a b → ρ a' b → a = a'
  left : ∀ {a b}, ρ a b → a.number < w.cells.size
  right : ∀ {a b}, ρ a b → b.number < w'.cells.size
  cells : ∀ {a b}, ρ a b → (w.cell a).Twin ρ (w'.cell b)
  globals : NamesTwin ρ w.globals w'.globals

/-- Comparing finds the same, since different identities have different counterparts. -/
theorem World.Twin.same_eq {ρ : Pairing} {w w' : World} (hw : w.Twin ρ w') {a a' x x' : Arg} (h : a.Twin ρ a')
    (hx : x.Twin ρ x') : a.same x = a'.same x' := by
  have hpaired : ∀ {i j k l : Identity}, ρ i j → ρ k l → decide (i = k) = decide (j = l) := by
    intro i j k l hij hkl
    refine decide_eq_decide.mpr ⟨?_, ?_⟩
    · rintro rfl
      exact hw.functional hij hkl
    · rintro rfl
      exact hw.injective hij hkl
  cases h <;> cases hx <;> first | rfl | exact hpaired ‹_› ‹_›

/-- New identities may be given out, and lines written, but all else stays. -/
structure World.Grows (w w₁ : World) : Prop where
  size : w.cells.size ≤ w₁.cells.size
  cells : ∀ {a : Identity}, a.number < w.cells.size → w₁.cell a = w.cell a
  globals : w₁.globals = w.globals

namespace World.Grows

variable {w w₁ w₂ : World}

theorem refl (w : World) : w.Grows w := ⟨Nat.le_refl _, fun _ => rfl, rfl⟩

theorem trans (h : w.Grows w₁) (h' : w₁.Grows w₂) : w.Grows w₂ :=
  ⟨Nat.le_trans h.size h'.size, fun ha => (h'.cells (Nat.lt_of_lt_of_le ha h.size)).trans (h.cells ha),
    h'.globals.trans h.globals⟩

end World.Grows

/-- What has been paired anew is new in both worlds. -/
structure Extends (ρ : Pairing) (w w' : World) (ρ₁ : Pairing) (w₁ w₁' : World) : Prop where
  within : ρ.Within ρ₁
  fresh : ∀ {a b}, ρ₁ a b → ρ a b ∨ w.cells.size ≤ a.number ∧ w'.cells.size ≤ b.number
  left : w.Grows w₁
  right : w'.Grows w₁'

namespace Extends

variable {ρ ρ₁ ρ₂ : Pairing} {w w' w₁ w₁' w₂ w₂' : World}

theorem refl (ρ : Pairing) (w w' : World) : Extends ρ w w' ρ w w' := ⟨fun _ _ h => h, .inl, .refl w, .refl w'⟩

theorem trans (h : Extends ρ w w' ρ₁ w₁ w₁') (h' : Extends ρ₁ w₁ w₁' ρ₂ w₂ w₂') : Extends ρ w w' ρ₂ w₂ w₂' where
  within a b hab := h'.within a b (h.within a b hab)
  fresh hab := by
    rcases h'.fresh hab with hold | ⟨hleft, hright⟩
    · exact h.fresh hold
    · exact .inr ⟨Nat.le_trans h.left.size hleft, Nat.le_trans h.right.size hright⟩
  left := h.left.trans h'.left
  right := h.right.trans h'.right

end Extends

/-- How two actions run side by side: from twin states to twin states. -/
structure Frame (τ : Type) where
  Twin : Pairing → τ → τ → Prop
  world : τ → World

section Tracks

variable {τ ε α β : Type}

/-- How two actions that run side by side have ended: both with a result, or both with the same error. -/
inductive EndsTwin (F : Frame τ) (Q : Pairing → α → α → Prop) (ρ : Pairing) (s s' : τ) :
    EStateM.Result ε τ α → EStateM.Result ε τ α → Prop
  | ok {x y : α} {t t' : τ} {ρ₁ : Pairing} (hextends : Extends ρ (F.world s) (F.world s') ρ₁ (F.world t) (F.world t'))
      (hstate : F.Twin ρ₁ t t') (hresult : Q ρ₁ x y) : EndsTwin F Q ρ s s' (.ok x t) (.ok y t')
  | error {err : ε} {t t' : τ} {ρ₁ : Pairing}
      (hextends : Extends ρ (F.world s) (F.world s') ρ₁ (F.world t) (F.world t')) (hstate : F.Twin ρ₁ t t') :
      EndsTwin F Q ρ s s' (.error err t) (.error err t')

/-- From any twin states, with whatever may have been paired since, both actions end alike. -/
def Tracks (F : Frame τ) (ρ : Pairing) (Q : Pairing → α → α → Prop) (m m' : EStateM ε τ α) : Prop :=
  ∀ ρ₁, ρ.Within ρ₁ → ∀ s s', F.Twin ρ₁ s s' → EndsTwin F Q ρ₁ s s' (m s) (m' s')

namespace Tracks

variable {F : Frame τ} {ρ : Pairing} {Q : Pairing → α → α → Prop} {P : Pairing → β → β → Prop} {m m' : EStateM ε τ α}

theorem pure {x y : α} (h : ∀ ρ₁, ρ.Within ρ₁ → Q ρ₁ x y) :
    Tracks F ρ Q (Pure.pure x : EStateM ε τ α) (Pure.pure y) :=
  fun ρ₁ hwithin _ _ hstate => .ok (.refl ρ₁ _ _) hstate (h ρ₁ hwithin)

theorem throw (err : ε) : Tracks F ρ Q (MonadExcept.throw err : EStateM ε τ α) (MonadExcept.throw err) :=
  fun ρ₁ _ _ _ hstate => .error (.refl ρ₁ _ _) hstate

theorem bind {f f' : α → EStateM ε τ β} (h : Tracks F ρ Q m m')
    (hnext : ∀ ρ₁, ρ.Within ρ₁ → ∀ x y, Q ρ₁ x y → Tracks F ρ₁ P (f x) (f' y)) :
    Tracks F ρ P (m >>= f) (m' >>= f') := by
  intro ρ₁ hwithin s s' hstate
  change EndsTwin F P ρ₁ s s' (EStateM.bind m f s) (EStateM.bind m' f' s')
  have hfirst := h ρ₁ hwithin s s' hstate
  unfold EStateM.bind
  generalize m s = r, m' s' = r' at hfirst
  cases hfirst with
  | error hextends hstate => exact .error hextends hstate
  | @ok x y t t' ρ₂ hextends hstate hresult =>
      have hlater := hnext ρ₂ (fun a b hab => hextends.within a b (hwithin a b hab)) x y hresult ρ₂ (fun _ _ hab => hab)
        t t' hstate
      dsimp only
      generalize f x t = r, f' y t' = r' at hlater
      cases hlater with
      | ok hextends' hstate hresult => exact .ok (hextends.trans hextends') hstate hresult
      | error hextends' hstate => exact .error (hextends.trans hextends') hstate

theorem within {ρ' : Pairing} (h : Tracks F ρ Q m m') (hwithin : ρ.Within ρ') : Tracks F ρ' Q m m' :=
  fun ρ₁ hwithin' => h ρ₁ fun a b hab => hwithin' a b (hwithin a b hab)

end Tracks

end Tracks

/-- Worlds as they are. -/
def World.frame : Frame World := ⟨World.Twin, id⟩

/-- Two actions of scripts that do the same but for identities. -/
abbrev ActsTwin {ε α : Type} (ρ : Pairing) (Q : Pairing → α → α → Prop) (m m' : EStateM ε World α) : Prop :=
  Tracks World.frame ρ Q m m'

namespace ActsTwin

variable {ε ε' α : Type} {ρ : Pairing} {Q : Pairing → α → α → Prop}

theorem ofAct {m m' : Act World α} (h : ActsTwin ρ Q m m') :
    ActsTwin ρ Q (Attempt.ofAct m : Attempt ε World α) (Attempt.ofAct m') := by
  intro ρ₁ hwithin w w' hw
  have hends := h ρ₁ hwithin w w' hw
  unfold Attempt.ofAct
  generalize m w = r, m' w' = r' at hends
  cases hends with
  | ok hextends hstate hresult => exact .ok hextends hstate hresult
  | error hextends hstate => exact .error hextends hstate

theorem mapError {m m' : Attempt ε World α} (h : ActsTwin ρ Q m m') (f : ε → ε') :
    ActsTwin ρ Q (m.mapError f) (m'.mapError f) := by
  intro ρ₁ hwithin w w' hw
  have hends := h ρ₁ hwithin w w' hw
  unfold Attempt.mapError
  generalize m w = r, m' w' = r' at hends
  cases hends with
  | ok hextends hstate hresult => exact .ok hextends hstate hresult
  | @error err _ _ _ hextends hstate => cases err <;> exact .error hextends hstate

theorem orBreakOff {m m' : Attempt ε World α} (h : ActsTwin ρ Q m m') (message : ε → String) :
    ActsTwin ρ Q (m.orBreakOff message) (m'.orBreakOff message) := by
  intro ρ₁ hwithin w w' hw
  have hends := h ρ₁ hwithin w w' hw
  unfold Attempt.orBreakOff
  generalize m w = r, m' w' = r' at hends
  cases hends with
  | ok hextends hstate hresult => exact .ok hextends hstate hresult
  | @error err _ _ _ hextends hstate => cases err <;> exact .error hextends hstate

/-- The identities drawn for twin cells are paired with each other. -/
theorem alloc {c c' : Cell} (h : c.Twin ρ c') :
    ActsTwin ρ (fun ρ₁ i j => ρ₁ i j) (World.alloc c) (World.alloc c') := by
  intro ρ₁ hwithin w w' hw
  let ρ₂ : Pairing := fun a b => ρ₁ a b ∨ a = ⟨w.cells.size⟩ ∧ b = ⟨w'.cells.size⟩
  have hgrows : ∀ (v : World) (d : Cell), v.Grows { v with cells := v.cells.push d } := fun v d =>
    ⟨by simp, fun ha => by simp [World.cell, Array.getElem?_push, Nat.ne_of_lt ha], rfl⟩
  have hwithin₂ : ρ₁.Within ρ₂ := fun _ _ => .inl
  refine EndsTwin.ok (⟨hwithin₂, ?_, hgrows w c, hgrows w' c'⟩ : Extends ρ₁ w w' ρ₂ _ _) ?_ (.inr ⟨rfl, rfl⟩)
  · rintro a b (hab | ⟨rfl, rfl⟩)
    · exact .inl hab
    · exact .inr ⟨Nat.le_refl _, Nat.le_refl _⟩
  constructor
  · rintro a b b' (hab | ⟨rfl, rfl⟩) (hab' | ⟨heq, rfl⟩)
    · exact hw.functional hab hab'
    · exact absurd (hw.left hab) (by simp [heq])
    · exact absurd (hw.left hab') (by simp)
    · rfl
  · rintro a a' b (hab | ⟨rfl, rfl⟩) (hab' | ⟨rfl, heq⟩)
    · exact hw.injective hab hab'
    · exact absurd (hw.right hab) (by simp [heq])
    · exact absurd (hw.right hab') (by simp)
    · rfl
  · rintro a b (hab | ⟨rfl, rfl⟩)
    · exact Nat.lt_of_lt_of_le (hw.left hab) (hgrows w c).size
    · simp
  · rintro a b (hab | ⟨rfl, rfl⟩)
    · exact Nat.lt_of_lt_of_le (hw.right hab) (hgrows w' c').size
    · simp
  · rintro a b (hab | ⟨rfl, rfl⟩)
    · rw [(hgrows w c).cells (hw.left hab), (hgrows w' c').cells (hw.right hab)]
      exact (hw.cells hab).mono hwithin₂
    · simp only [World.cell, Array.getD_eq_getD_getElem?, Array.getElem?_push, ↓reduceIte, Option.getD_some]
      exact h.mono fun a b hab => .inl (hwithin a b hab)
  · exact hw.globals.mono hwithin₂

theorem write (line line' : String) : ActsTwin ρ (fun _ _ _ => True) (World.write line) (World.write line') := by
  intro ρ₁ _ w w' hw
  have hgrows : ∀ (v : World) (lines : Array String), v.Grows { v with journal := lines } := fun _ _ =>
    ⟨Nat.le_refl _, fun _ => rfl, rfl⟩
  exact EndsTwin.ok (⟨fun _ _ h => h, .inl, hgrows _ _, hgrows _ _⟩ : Extends ρ₁ w w' ρ₁ _ _)
    ⟨hw.functional, hw.injective, hw.left, hw.right, hw.cells, hw.globals⟩ trivial

/-- What is read of the world may be used as long as the world is as it was. -/
theorem get : ActsTwin ρ (fun ρ₁ w w' => w.Twin ρ₁ w') (MonadState.get : EStateM ε World World) MonadState.get :=
  fun ρ₁ _ w w' hw => .ok (.refl ρ₁ w w') hw hw

end ActsTwin

end Parlance
