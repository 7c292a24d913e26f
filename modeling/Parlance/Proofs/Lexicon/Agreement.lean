import Mathlib.Data.List.Forall2
import Parlance.Script.Behaviour

/-! Two actions that end alike: with results that correspond or, if that is allowed for, with the same error.
Either of them may also give up, with an error that stands for nothing but a limit that it has reached; then
nothing is said of the other. What is proved of single actions holds of sequences of them. -/

namespace Parlance

section Agreement

variable {ε σ α α' β β' : Type} (fails : Prop) (stop stop' : ε → Prop) (S : σ → σ → Prop)

/-- How two actions have ended. -/
inductive EndAlike (Q : α → α' → Prop) : EStateM.Result ε σ α → EStateM.Result ε σ α' → Prop
  | ok {x : α} {y : α'} {s s' : σ} (hresult : Q x y) (hstate : S s s') : EndAlike Q (.ok x s) (.ok y s')
  | error {err : ε} {s s' : σ} (hfails : fails) (hstate : S s s') : EndAlike Q (.error err s) (.error err s')
  | stopped {err : ε} {s : σ} {r : EStateM.Result ε σ α'} (hstop : stop err) : EndAlike Q (.error err s) r
  | stopped' {err : ε} {s : σ} {r : EStateM.Result ε σ α} (hstop : stop' err) : EndAlike Q r (.error err s)

/-- The two actions end alike from any two states that correspond. -/
def Agrees (Q : α → α' → Prop) (m : EStateM ε σ α) (m' : EStateM ε σ α') : Prop :=
  ∀ s s', S s s' → EndAlike fails stop stop' S Q (m s) (m' s')

namespace Agrees

variable {fails stop stop' S} {Q Q' : α → α' → Prop} {P : β → β' → Prop} {m : EStateM ε σ α} {m' : EStateM ε σ α'}

theorem pure {x : α} {y : α'} (h : Q x y) :
    Agrees fails stop stop' S Q (Pure.pure x : EStateM ε σ α) (Pure.pure y : EStateM ε σ α') :=
  fun _ _ hS => .ok h hS

theorem throw (h : fails) (err : ε) :
    Agrees fails stop stop' S Q (MonadExcept.throw err : EStateM ε σ α) (MonadExcept.throw err : EStateM ε σ α') :=
  fun _ _ hS => .error h hS

theorem stopped {err : ε} (h : stop err) :
    Agrees fails stop stop' S Q (MonadExcept.throw err : EStateM ε σ α) m' := fun _ _ _ => .stopped h

theorem stopped' {err : ε} (h : stop' err) :
    Agrees fails stop stop' S Q m (MonadExcept.throw err : EStateM ε σ α') := fun _ _ _ => .stopped' h

theorem mono (h : Agrees fails stop stop' S Q m m') (hQ : ∀ x y, Q x y → Q' x y) :
    Agrees fails stop stop' S Q' m m' := by
  intro s s' hS
  have hends := h s s' hS
  generalize m s = r, m' s' = r' at hends
  cases hends with
  | ok hresult hstate => exact .ok (hQ _ _ hresult) hstate
  | error hfails hstate => exact .error hfails hstate
  | stopped hstop => exact .stopped hstop
  | stopped' hstop => exact .stopped' hstop

theorem bind {f : α → EStateM ε σ β} {f' : α' → EStateM ε σ β'} (h : Agrees fails stop stop' S Q m m')
    (hnext : ∀ x y, Q x y → Agrees fails stop stop' S P (f x) (f' y)) :
    Agrees fails stop stop' S P (m >>= f) (m' >>= f') := by
  intro s s' hS
  change EndAlike fails stop stop' S P (EStateM.bind m f s) (EStateM.bind m' f' s')
  have hfirst := h s s' hS
  unfold EStateM.bind
  generalize m s = r, m' s' = r' at hfirst
  cases hfirst with
  | ok hresult hstate => exact hnext _ _ hresult _ _ hstate
  | error hfails hstate => exact .error hfails hstate
  | stopped hstop => exact .stopped hstop
  | stopped' hstop => exact .stopped' hstop

theorem mapM {R : β → β' → Prop} {f : β → EStateM ε σ α} {f' : β' → EStateM ε σ α'} {as : List β}
    {as' : List β'} (has : List.Forall₂ R as as')
    (h : ∀ a a', R a a' → Agrees fails stop stop' S Q (f a) (f' a')) :
    Agrees fails stop stop' S (List.Forall₂ Q) (as.mapM f) (as'.mapM f') := by
  induction has with
  | nil => exact .pure .nil
  | cons head _ ih =>
      rw [List.mapM_cons, List.mapM_cons]
      exact (h _ _ head).bind fun _ _ hx => ih.bind fun _ _ hxs => .pure (.cons hx hxs)

end Agrees

/-- The action ends with a result that is as it should be, or gives up. -/
def Yields (P : α → Prop) (m : EStateM ε σ α) : Prop :=
  ∀ s, (∃ x s', m s = .ok x s' ∧ P x) ∨ ∃ err s', m s = .error err s' ∧ stop err

namespace Yields

variable {stop} {P P' : α → Prop} {Q : β → Prop} {m : EStateM ε σ α}

theorem pure {x : α} (h : P x) : Yields stop P (Pure.pure x : EStateM ε σ α) := fun s => .inl ⟨x, s, rfl, h⟩

theorem throw {err : ε} (h : stop err) : Yields stop P (MonadExcept.throw err : EStateM ε σ α) :=
  fun s => .inr ⟨err, s, rfl, h⟩

theorem mono (h : Yields stop P m) (hP : ∀ x, P x → P' x) : Yields stop P' m := fun s =>
  (h s).imp_left fun ⟨x, s', hm, hx⟩ => ⟨x, s', hm, hP x hx⟩

theorem bind {f : α → EStateM ε σ β} (h : Yields stop P m) (hnext : ∀ x, P x → Yields stop Q (f x)) :
    Yields stop Q (m >>= f) := by
  intro s
  change (∃ x s', EStateM.bind m f s = .ok x s' ∧ Q x) ∨ ∃ err s', EStateM.bind m f s = .error err s' ∧ stop err
  rcases h s with ⟨x, s', hm, hx⟩ | ⟨err, s', hm, hstop⟩
  · simp only [EStateM.bind, hm]
    exact hnext x hx s'
  · simp only [EStateM.bind, hm]
    exact .inr ⟨err, s', rfl, hstop⟩

/-- What is asked of a result beside one that is there from the start. -/
theorem of_agrees {x : α'} {Q : α' → α → Prop} (h : Agrees False (fun _ => False) stop (fun _ _ => True) Q
    (Pure.pure x) m) : Yields stop (Q x) m := by
  intro s
  have hends := h s s trivial
  change EndAlike _ _ _ _ _ (.ok x s) (m s) at hends
  generalize m s = r at hends
  cases hends with
  | ok hresult _ => exact .inl ⟨_, _, rfl, hresult⟩
  | stopped' hstop => exact .inr ⟨_, _, rfl, hstop⟩

theorem agrees {x : α'} {Q : α' → α → Prop} (h : Yields stop (Q x) m) :
    Agrees False (fun _ => False) stop (fun _ _ => True) Q (Pure.pure x) m := by
  intro s s' _
  change EndAlike _ _ _ _ _ (.ok x s) (m s')
  rcases h s' with ⟨y, s₁, hm, hy⟩ | ⟨err, s₁, hm, hstop⟩
  · exact hm ▸ .ok hy trivial
  · exact hm ▸ .stopped' hstop

end Yields

end Agreement

/-- Two actions that succeed alike in any two worlds, unless the second goes deeper than it may. -/
def ActsAgree {α α' : Type} (Q : α → α' → Prop) (m : Act World α) (m' : Act World α') : Prop :=
  Agrees False (fun _ => False) (· = .exhausted) (fun _ _ => True) Q m m'

/-- The same for attempts, which may also fail if that is allowed for. -/
def AttemptsAgree {ε α α' : Type} (fails : Prop) (Q : α → α' → Prop) (m : Attempt ε World α)
    (m' : Attempt ε World α') : Prop :=
  Agrees fails (fun _ => False) (· = .trouble .exhausted) (fun _ _ => True) Q m m'

variable {ε ε' α α' : Type} {fails : Prop} {Q : α → α' → Prop}

theorem ActsAgree.ofAct {m : Act World α} {m' : Act World α'} (h : ActsAgree Q m m') :
    AttemptsAgree fails Q (.ofAct m : Attempt ε World α) (.ofAct m') := by
  intro w w' _
  have hends := h w w' trivial
  unfold Attempt.ofAct
  generalize m w = r, m' w' = r' at hends
  cases hends with
  | ok hresult _ => exact .ok hresult trivial
  | error hfails _ => exact hfails.elim
  | stopped hstop => exact hstop.elim
  | stopped' hstop => exact .stopped' (hstop ▸ rfl)

theorem AttemptsAgree.orBreakOff {m : Attempt ε World α} {m' : Attempt ε World α'}
    (h : AttemptsAgree False Q m m') (message : ε → String) :
    ActsAgree Q (m.orBreakOff message) (m'.orBreakOff message) := by
  intro w w' _
  have hends := h w w' trivial
  unfold Attempt.orBreakOff
  generalize m w = r, m' w' = r' at hends
  cases hends with
  | ok hresult _ => exact .ok hresult trivial
  | error hfails _ => exact hfails.elim
  | stopped hstop => exact hstop.elim
  | stopped' hstop =>
      subst hstop
      exact .stopped' rfl

theorem AttemptsAgree.mapError {m : Attempt ε World α} {m' : Attempt ε World α'} (h : AttemptsAgree fails Q m m')
    (f : ε → ε') : AttemptsAgree fails Q (m.mapError f) (m'.mapError f) := by
  intro w w' _
  have hends := h w w' trivial
  unfold Attempt.mapError
  generalize m w = r, m' w' = r' at hends
  cases hends with
  | ok hresult _ => exact .ok hresult trivial
  | @error err _ _ hfails _ => cases err <;> exact .error hfails trivial
  | stopped hstop => exact hstop.elim
  | stopped' hstop =>
      subst hstop
      exact .stopped' rfl

/-- Identities may be drawn and lines written at will. -/
theorem ActsAgree.alloc (cell cell' : Cell) : ActsAgree (fun _ _ => True) (World.alloc cell) (World.alloc cell') :=
  fun _ _ _ => .ok trivial trivial

theorem ActsAgree.write (line line' : String) :
    ActsAgree (fun _ _ => True) (World.write line) (World.write line') := fun _ _ _ => .ok trivial trivial

end Parlance
