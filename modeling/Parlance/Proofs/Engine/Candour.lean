import Parlance.Proofs.Engine.Strategies

/-! Passes that end in the same way whatever a diff says of two lexems. A way to end is a result in a stage whose outputs
fit, an error that has nothing to do with congruence, or two lexems that are not congruent; the rules say what comes of
passes that are put together. -/

namespace Parlance

variable {ω : Type}

def PassError.isIncongruent : PassError → Bool
  | .incongruent .. => true
  | _ => false

/-- A value or an error that has nothing to do with congruence. -/
def Mild {α : Type} (x : Except PassError α) : Prop := ∀ err, x = .error err → err.isIncongruent = false

/-- How a pass ends, whatever is said of lexems: in a sound stage with a result, or it breaks off, or in an error that
has nothing to do with congruence, or because two lexems are not congruent. -/
inductive Uniform {α : Type} (e : Engine) (Q : α → Prop)
    (ends : Objections → EStateM.Result (Halt PassError) (Stage ω) α) : Prop
  | ok {a : α} {σ : Stage ω} (hends : ∀ q, ends q = .ok a σ) (hsound : e.Sound σ) (hresult : Q a)
  | trouble {t : Trouble} {σ : Stage ω} (hends : ∀ q, ends q = .error (.trouble t) σ)
  | error {err : PassError} {σ : Stage ω} (hends : ∀ q, ends q = .error (.error err) σ)
      (hother : err.isIncongruent = false)
  | clash {s s' : Sentence} {index : Nat} {lexem old : Lexem} {σ : Stage ω}
      (hends : ∀ q : Objections, ends q = .error (.error (q.clash s s' index lexem old)) σ)
      (hlexem : s.lexems[index]? = some lexem) (hold : s'.lexems[index]? = some old)
      (hdiffer : lexem.isCongruent old = false)

/-- From a sound stage a pass ends in the same way whatever is said of lexems. -/
def Tells {α : Type} (e : Engine) (m : Objections → Pass ω α) (Q : α → Prop) : Prop :=
  ∀ σ, e.Sound σ → Uniform e Q fun q => m q σ

namespace Tells

variable {α β : Type} {e : Engine} {Q R : α → Prop} {S : β → Prop} {b}

theorem pure {a : α} (ha : Q a) : Tells e (fun _ => (Pure.pure a : Pass ω α)) Q := fun _ hσ => .ok (fun _ => rfl) hσ ha

theorem bind {m : Objections → Pass ω α} {f : Objections → α → Pass ω β} (hm : Tells e m Q)
    (hf : ∀ a, Q a → Tells e (fun q => f q a) S) : Tells e (fun q => m q >>= f q) S := by
  intro σ hσ
  have hbind : ∀ q, (m q >>= f q) σ = match m q σ with
      | .ok a σ₁ => f q a σ₁
      | .error err σ₁ => .error err σ₁ := by
    intro q
    change EStateM.bind (m q) (f q) σ = _
    unfold EStateM.bind
    cases m q σ <;> rfl
  cases hm σ hσ with
  | ok hends hsound hresult =>
      simp only [hbind, hends]
      exact hf _ hresult _ hsound
  | trouble hends => exact .trouble fun q => (hbind q).trans (by rw [hends])
  | error hends hother => exact .error (fun q => (hbind q).trans (by rw [hends])) hother
  | clash hends hlexem hold hdiffer => exact .clash (fun q => (hbind q).trans (by rw [hends])) hlexem hold hdiffer

theorem weaken {m : Objections → Pass ω α} (hm : Tells e m Q) (hQ : ∀ a, Q a → R a) : Tells e m R := by
  intro σ hσ
  cases hm σ hσ with
  | ok hends hsound hresult => exact .ok hends hsound (hQ _ hresult)
  | trouble hends => exact .trouble hends
  | error hends hother => exact .error hends hother
  | clash hends hlexem hold hdiffer => exact .clash hends hlexem hold hdiffer

theorem ok {m : Objections → Pass ω α} {a : α} {σ σ' : Stage ω} (h : Tells e m Q) (q : Objections) (hσ : e.Sound σ)
    (hok : m q σ = .ok a σ') : e.Sound σ' ∧ Q a := by
  cases h σ hσ with
  | ok hends hsound hresult =>
      cases (hends q).symm.trans hok
      exact ⟨hsound, hresult⟩
  | trouble hends => cases (hends q).symm.trans hok
  | error hends => cases (hends q).symm.trans hok
  | clash hends => cases (hends q).symm.trans hok

theorem fail {err : PassError} (h : err.isIncongruent = false) : Tells e (fun _ => (Pass.fail err : Pass ω α)) Q :=
  fun _ _ => .error (fun _ => rfl) h

theorem ofExcept {x : Except PassError α} (h : Mild x) :
    Tells e (fun _ => (Pass.ofExcept x : Pass ω α)) fun a => x = .ok a := by
  cases x with
  | ok a => exact .pure rfl
  | error err => exact .fail (h err rfl)

theorem act (action : Act ω α) : Tells e (fun _ => Pass.act action) fun _ => True := by
  intro σ hσ
  cases hrun : action σ.world with
  | ok a w =>
      exact .ok (a := a) (σ := { σ with world := w }) (fun _ => by simp only [Pass.act, hrun]) hσ trivial
  | error t w => exact .trouble (t := t) (σ := { σ with world := w }) fun _ => by simp only [Pass.act, hrun]

theorem attempt {ε : Type} {cause : ε → PassError} (hcause : ∀ x, (cause x).isIncongruent = false)
    (action : Attempt ε ω α) : Tells e (fun _ => Pass.attempt cause action) fun _ => True := by
  intro σ hσ
  cases hrun : action σ.world with
  | ok a w =>
      exact .ok (a := a) (σ := { σ with world := w }) (fun _ => by simp only [Pass.attempt, hrun]) hσ trivial
  | error err w =>
      cases err with
      | error x =>
          have hfails : (cause x).isIncongruent = false := hcause x
          exact .error (σ := { σ with world := w }) (fun _ => by simp only [Pass.attempt, hrun]) hfails
      | trouble t => exact .trouble (t := t) (σ := { σ with world := w }) fun _ => by simp only [Pass.attempt, hrun]

theorem actOnHost (action : Host → Act ω Host) : Tells e (fun _ => Pass.actOnHost action) fun _ => True := by
  intro σ hσ
  cases hrun : action σ.host σ.world with
  | ok h w =>
      exact .ok (a := ()) (σ := { σ with host := h, world := w }) (fun _ => by simp only [Pass.actOnHost, hrun]) hσ trivial
  | error t w => exact .trouble (t := t) (σ := { σ with world := w }) fun _ => by simp only [Pass.actOnHost, hrun]

theorem edit (f : Host → Host) : Tells e (fun _ => (Pass.edit f : Pass ω Unit)) fun _ => True := fun _ hσ =>
  .ok (fun _ => rfl) hσ trivial

theorem make (f : Host → α × Host) : Tells e (fun _ => (Pass.make f : Pass ω α)) fun a => ∃ h, (f h).1 = a :=
  fun σ hσ => .ok (fun _ => rfl) hσ ⟨σ.host, rfl⟩

theorem instances : Tells e (fun _ => (Pass.instances : Pass ω (Array Instance))) fun t =>
    ∀ (n : Nat) (i : Instance), t[n]? = some i → i.engine = e ∧ ∀ r, i.developed = some r → e.Fitted r :=
  fun _ hσ => .ok (fun _ => rfl) hσ hσ

/-- A component may change as long as it is of the engine and its output fits. -/
theorem editInstance (id : InstanceId) {f : Instance → Instance} (hengine : ∀ i, (f i).engine = i.engine)
    (houtput : ∀ i r, (f i).developed = some r → i.developed = some r ∨ e.Fitted r) :
    Tells e (fun _ => (Pass.editInstance id f : Pass ω Unit)) fun _ => True := by
  intro σ hσ
  refine .ok (fun _ => rfl) (fun n i hi => ?_) trivial
  change (σ.instances.modify id.index f)[n]? = some i at hi
  rw [Array.getElem?_modify] at hi
  split at hi
  · obtain ⟨j, hj, rfl⟩ := Option.map_eq_some_iff.mp hi
    obtain ⟨hown, hfitted⟩ := hσ n j hj
    exact ⟨(hengine j).trans hown, fun r hr => (houtput j r hr).elim (hfitted r) fun h => h⟩
  · exact hσ n i hi

theorem mapM {f : α → Pass ω β} {as : List α} {P : α → β → Prop} (hf : ∀ a ∈ as, Tells e (fun _ => f a) (P a)) :
    Tells e (fun _ => as.mapM f) fun bs => List.Forall₂ P as bs := by
  induction as with
  | nil => exact .pure .nil
  | cons a as ih =>
      simp only [List.mapM_cons]
      exact .bind (hf a List.mem_cons_self) fun x hx =>
        .bind (ih fun a' ha' => hf a' (List.mem_cons_of_mem _ ha')) fun xs hxs => .pure (.cons hx hxs)

/-- What each step of a list comes to. -/
theorem mapM_all {f : α → Pass ω β} {as : List α} (hf : ∀ a ∈ as, Tells e (fun _ => f a) S) :
    Tells e (fun _ => as.mapM f) fun bs => ∀ x ∈ bs, S x := by
  refine (mapM (P := fun _ => S) hf).weaken fun bs hbs => ?_
  clear hf
  induction hbs with
  | nil => nofun
  | cons head _ ih => exact List.forall_mem_cons.mpr ⟨head, ih⟩

theorem forM {f : α → Pass ω PUnit} {as : List α} (hf : ∀ a ∈ as, Tells e (fun _ => f a) fun _ => True) :
    Tells e (fun _ => as.forM f) fun _ => True := by
  induction as with
  | nil => exact .pure trivial
  | cons a as ih =>
      change Tells e (fun _ => f a >>= fun _ => as.forM f) fun _ => True
      exact .bind (hf a List.mem_cons_self) fun _ _ => ih fun a' ha' => hf a' (List.mem_cons_of_mem _ ha')

theorem witness (c : Cursor) (label : String) : Tells e (fun _ => (Pass.witness e c label : Pass ω NodeId)) fun _ => True :=
  (make _).weaken fun _ _ => trivial

end Tells

section Mildness

variable {lexem old : Lexem}

theorem Lexem.invalid_mild {α : Type} (index : Nat) (expected : String) :
    Mild (lexem.invalid index expected : Except PassError α) := by
  rintro _ ⟨⟩
  rfl

theorem Lexem.stringArg_mild (index : Nat) : Mild (lexem.stringArg index) := by
  unfold stringArg
  split
  · nofun
  · exact invalid_mild index _

theorem Lexem.scalarArg_mild (index : Nat) : Mild (lexem.scalarArg index) := by
  unfold scalarArg
  split
  · nofun
  · exact invalid_mild index _

theorem Lexem.listener_mild : Mild lexem.listener := by
  unfold listener
  split
  · nofun
  · rintro _ ⟨⟩
    rfl

theorem Lexem.hookArg_mild : Mild lexem.hookArg := by
  unfold hookArg
  split
  · nofun
  · exact invalid_mild 0 _

theorem Lexem.callbackArg_mild : Mild lexem.callbackArg := by
  unfold callbackArg
  split
  · nofun
  · exact invalid_mild 0 _

theorem Lexem.componentArg_mild : Mild lexem.componentArg := by
  unfold componentArg
  split
  · nofun
  · exact invalid_mild 0 _

theorem Engine.childPhrase_mild (e : Engine) (tag : Lexem) (child : Arg) : Mild (e.childPhrase tag child) := by
  unfold childPhrase
  split
  · nofun
  · split
    · rintro _ ⟨⟩
      rfl
    · nofun

theorem Mild.bind {α β : Type} {x : Except PassError α} {f : α → Except PassError β} (hx : Mild x) (hf : ∀ a, Mild (f a)) :
    Mild (x >>= f) := by
  cases x with
  | ok a => exact hf a
  | error err =>
      rintro _ ⟨⟩
      exact hx _ rfl

theorem Mild.pure {α : Type} (a : α) : Mild (Pure.pure a : Except PassError α) := nofun

theorem Lexem.diffEntry_mild (set : String → String → Host → Host) (remove : String → Host → Host) :
    Mild (lexem.diffEntry old set remove) := by
  unfold diffEntry
  refine .bind (stringArg_mild 0) fun key => .bind (stringArg_mild 0) fun oldKey => ?_
  dsimp only
  split
  · exact .pure _
  · split <;> exact .pure _

theorem Lexem.diffProperty_mild (live : Bool) (node : NodeId) : Mild (lexem.diffProperty old live node) := by
  unfold diffProperty
  refine .bind (stringArg_mild 0) fun name => .bind (stringArg_mild 0) fun oldName =>
    .bind (scalarArg_mild 1) fun value => ?_
  dsimp only
  split
  · exact .pure _
  · split
    · exact .pure _
    · split <;> exact .pure _

end Mildness

/-- A pass says nothing of two lexems but that they differ in word or namespace, and names them as they stand at one
index of two sentences: it never comes to a fall-back, whatever would be said there. -/
structure Candid {α : Type} (m : Objections → Pass ω α) (σ : Stage ω) : Prop where
  stray : ∀ q q' : Objections, q.clash = q'.clash → m q σ = m q' σ
  clash : ∀ {index : Nat} {expected found : String} {σ' : Stage ω},
    m .plain σ = .error (.error (.incongruent index expected found)) σ' → ∃ (s s' : Sentence) (lexem old : Lexem),
      s.lexems[index]? = some lexem ∧ s'.lexems[index]? = some old ∧ (lexem.space, lexem.name) ≠ (old.space, old.name) ∧
      found = lexem.qualified ∧ expected = old.qualified ∧
      ∀ q : Objections, m q σ = .error (.error (q.clash s s' index lexem old)) σ'

theorem Tells.candid {α : Type} {e : Engine} {m : Objections → Pass ω α} {Q : α → Prop} {σ : Stage ω} (h : Tells e m Q)
    (hσ : e.Sound σ) : Candid m σ := by
  cases h σ hσ with
  | ok hends => exact ⟨fun q q' _ => (hends q).trans (hends q').symm, fun hm => by cases (hends .plain).symm.trans hm⟩
  | trouble hends => exact ⟨fun q q' _ => (hends q).trans (hends q').symm, fun hm => by cases (hends .plain).symm.trans hm⟩
  | error hends hother =>
      refine ⟨fun q q' _ => (hends q).trans (hends q').symm, fun hm => ?_⟩
      cases (hends .plain).symm.trans hm
      cases hother
  | @clash s s' index lexem old _ hends hlexem hold hdiffer =>
      refine ⟨fun q q' hq => (hends q).trans ((hends q').trans (by rw [hq])).symm, fun hm => ?_⟩
      cases (hends .plain).symm.trans hm
      refine ⟨s, s', lexem, old, hlexem, hold, fun heq => ?_, rfl, rfl, hends⟩
      obtain ⟨hspace, hname⟩ := Prod.mk.inj heq
      simp [Lexem.isCongruent, hspace, hname] at hdiffer

/-- A pass that is the same whatever is said of lexems has nothing to do with congruence. -/
theorem Tells.mild {α : Type} {e : Engine} {m : Pass ω α} {Q : α → Prop} {σ σ' : Stage ω} {err : PassError}
    (h : Tells e (fun _ => m) Q) (hσ : e.Sound σ) (herror : m σ = .error (.error err) σ') : err.isIncongruent = false := by
  cases h σ hσ with
  | ok hends => cases (hends .plain).symm.trans herror
  | trouble hends => cases (hends .plain).symm.trans herror
  | error hends hother =>
      cases (hends .plain).symm.trans herror
      exact hother
  | clash hends =>
      cases (hends ⟨fun _ _ _ _ _ => .notMounted "", fun _ _ _ _ _ => .notMounted ""⟩).symm.trans herror
      rfl

end Parlance
