import Parlance.Engine.Output
import Parlance.Proofs.Lexicon.Acts

/-! What a pass that succeeds has done, for each of the ways in which passes are put together. A pass in
sequence has succeeded in each of its parts, and every primitive step names the stage that it leaves. -/

namespace Parlance

/-- A change that could be made is that change. -/
theorem Except.ok_of_toOption {ε α : Type} {r : Except ε α} {a : α} (h : r.toOption = some a) : r = .ok a := by
  cases r with
  | error => cases h
  | ok =>
      cases h
      rfl

namespace Stage

variable {ω : Type}

/-- The same stage in another world. -/
def inWorld (σ : Stage ω) (w : ω) : Stage ω := { σ with world := w }

/-- The same stage with its host changed. -/
def onHost (σ : Stage ω) (f : Host → Host) : Stage ω := { σ with host := f σ.host }

/-- The same stage with one component changed. -/
def onInstance (σ : Stage ω) (id : InstanceId) (f : Instance → Instance) : Stage ω :=
  { σ with instances := σ.instances.modify id.index f }

@[simp] theorem inWorld_host (σ : Stage ω) (w : ω) : (σ.inWorld w).host = σ.host := rfl

@[simp] theorem inWorld_instances (σ : Stage ω) (w : ω) : (σ.inWorld w).instances = σ.instances := rfl

@[simp] theorem inWorld_world (σ : Stage ω) (w : ω) : (σ.inWorld w).world = w := rfl

@[simp] theorem onHost_host (σ : Stage ω) (f : Host → Host) : (σ.onHost f).host = f σ.host := rfl

@[simp] theorem onHost_instances (σ : Stage ω) (f : Host → Host) :
    (σ.onHost f).instances = σ.instances := rfl

@[simp] theorem onHost_world (σ : Stage ω) (f : Host → Host) : (σ.onHost f).world = σ.world := rfl

@[simp] theorem onInstance_host (σ : Stage ω) (id : InstanceId) (f : Instance → Instance) :
    (σ.onInstance id f).host = σ.host := rfl

@[simp] theorem onInstance_instances (σ : Stage ω) (id : InstanceId) (f : Instance → Instance) :
    (σ.onInstance id f).instances = σ.instances.modify id.index f := rfl

@[simp] theorem onInstance_world (σ : Stage ω) (id : InstanceId) (f : Instance → Instance) :
    (σ.onInstance id f).world = σ.world := rfl

end Stage

/-- The text of a marker, as far as the options let it be seen. -/
def Engine.markerText (e : Engine) (label : String) : String := if e.config.labelMarkers then label else ""

namespace Host

/-- A new element, put at a cursor. -/
def putElement (h : Host) (c : Cursor) (tag : String) : Host :=
  (h.createElement tag).2.place c.parent h.next c.anchor

/-- A new text, put at a cursor. -/
def putText (h : Host) (c : Cursor) (value : String) : Host :=
  (h.createText value).2.place c.parent h.next c.anchor

/-- A new marker, put at a cursor. -/
def putMarker (h : Host) (c : Cursor) (label : String) : Host :=
  (h.createMarker label).2.place c.parent h.next c.anchor

end Host

namespace Pass

variable {ω α β : Type} {σ σ' : Stage ω}

theorem bind_eq_ok {m : Pass ω α} {f : α → Pass ω β} {x : β} :
    (m >>= f) σ = .ok x σ' ↔ ∃ a σ₁, m σ = .ok a σ₁ ∧ f a σ₁ = .ok x σ' := Act.bind_eq_ok

theorem pure_eq_ok {a x : α} : (pure a : Pass ω α) σ = .ok x σ' ↔ a = x ∧ σ = σ' := Act.pure_eq_ok

theorem fail_eq_ok {err : PassError} {x : α} : (fail err : Pass ω α) σ = .ok x σ' ↔ False := by
  change EStateM.Result.error _ _ = .ok x σ' ↔ _
  simp

theorem ofExcept_eq_ok {r : Except PassError α} {x : α} :
    (ofExcept r : Pass ω α) σ = .ok x σ' ↔ r = .ok x ∧ σ = σ' := by
  cases r with
  | ok a => simp only [ofExcept, pure_eq_ok, Except.ok.injEq]
  | error err => simp [ofExcept, fail_eq_ok]

theorem act_eq_ok {action : Act ω α} {x : α} :
    act action σ = .ok x σ' ↔ ∃ w, action σ.world = .ok x w ∧ σ.inWorld w = σ' := by
  unfold act
  cases action σ.world with
  | ok a w => simp only [EStateM.Result.ok.injEq, Stage.inWorld]; grind
  | error t w => simp

theorem actOnHost_eq_ok {action : Host → Act ω Host} {x : Unit} :
    actOnHost action σ = .ok x σ' ↔
      ∃ h w, action σ.host σ.world = .ok h w ∧ (σ.onHost fun _ => h).inWorld w = σ' := by
  unfold actOnHost
  cases action σ.host σ.world with
  | ok h w => simp only [EStateM.Result.ok.injEq, Stage.inWorld, Stage.onHost]; grind
  | error t w => simp

theorem edit_eq_ok {f : Host → Host} {x : Unit} :
    (edit f : Pass ω Unit) σ = .ok x σ' ↔ σ.onHost f = σ' := by
  change EStateM.Result.ok () (σ.onHost f) = .ok x σ' ↔ _
  simp

theorem make_eq_ok {f : Host → α × Host} {x : α} :
    (make f : Pass ω α) σ = .ok x σ' ↔ (f σ.host).1 = x ∧ σ.onHost (fun h => (f h).2) = σ' := by
  change EStateM.Result.ok (f σ.host).1 (σ.onHost fun h => (f h).2) = .ok x σ' ↔ _
  simp

theorem instances_eq_ok {x : Array Instance} :
    (instances : Pass ω (Array Instance)) σ = .ok x σ' ↔ σ.instances = x ∧ σ = σ' := by
  change EStateM.Result.ok σ.instances σ = .ok x σ' ↔ _
  simp

theorem modify_eq_ok {f : Stage ω → Stage ω} {x : PUnit} :
    (modify f : Pass ω PUnit) σ = .ok x σ' ↔ f σ = σ' := by
  change EStateM.Result.ok PUnit.unit (f σ) = .ok x σ' ↔ _
  simp

theorem editInstance_eq_ok {id : InstanceId} {f : Instance → Instance} {x : Unit} :
    (editInstance id f : Pass ω Unit) σ = .ok x σ' ↔ σ.onInstance id f = σ' := by
  change EStateM.Result.ok () (σ.onInstance id f) = .ok x σ' ↔ _
  simp

theorem witness_eq_ok {e : Engine} {c : Cursor} {label : String} {x : NodeId} :
    (witness e c label : Pass ω NodeId) σ = .ok x σ' ↔
      σ.host.next = x ∧ σ.onHost (·.putMarker c (e.markerText label)) = σ' := by
  unfold witness
  rw [make_eq_ok]
  rfl

/-- A pass that only acts in the world leaves the host and the components as they are. -/
theorem attempt_eq_ok {ε : Type} {cause : ε → PassError} {action : Attempt ε ω α} {x : α} :
    attempt cause action σ = .ok x σ' ↔ ∃ w, action σ.world = .ok x w ∧ σ.inWorld w = σ' := by
  unfold attempt
  cases action σ.world with
  | ok a w => simp only [EStateM.Result.ok.injEq, Stage.inWorld]; grind
  | error t w => cases t <;> simp

/-- Passes over the elements of a list, one after the other. -/
inductive Chain (f : α → Pass ω β) : List α → Stage ω → List β → Stage ω → Prop
  | nil {σ : Stage ω} : Chain f [] σ [] σ
  | cons {a : α} {as : List α} {x : β} {xs : List β} {σ σ₁ σ' : Stage ω}
      (head : f a σ = .ok x σ₁) (tail : Chain f as σ₁ xs σ') : Chain f (a :: as) σ (x :: xs) σ'

theorem mapM_eq_ok {f : α → Pass ω β} {as : List α} {xs : List β} :
    as.mapM f σ = .ok xs σ' ↔ Chain f as σ xs σ' := by
  induction as generalizing σ xs with
  | nil =>
      rw [List.mapM_nil, pure_eq_ok]
      constructor
      · rintro ⟨rfl, rfl⟩
        exact .nil
      · intro h
        cases h
        exact ⟨rfl, rfl⟩
  | cons a as ih =>
      rw [List.mapM_cons, bind_eq_ok]
      simp only [bind_eq_ok, pure_eq_ok]
      constructor
      · rintro ⟨x, σ₁, hx, ys, σ₂, hys, rfl, rfl⟩
        exact .cons hx (ih.mp hys)
      · intro h
        cases h with
        | cons head tail => exact ⟨_, _, head, _, _, ih.mpr tail, rfl, rfl⟩

theorem Chain.length_eq {f : α → Pass ω β} {as : List α} {xs : List β} (h : Chain f as σ xs σ') :
    xs.length = as.length := by
  induction h with
  | nil => rfl
  | cons _ _ ih => rw [List.length_cons, List.length_cons, ih]

/-- Passes over the elements of a list that leave nothing but their effects. -/
inductive Sweep (f : α → Pass ω PUnit) : List α → Stage ω → Stage ω → Prop
  | nil {σ : Stage ω} : Sweep f [] σ σ
  | cons {a : α} {as : List α} {σ σ₁ σ' : Stage ω}
      (head : f a σ = .ok ⟨⟩ σ₁) (tail : Sweep f as σ₁ σ') : Sweep f (a :: as) σ σ'

theorem forM_eq_ok {f : α → Pass ω PUnit} {as : List α} {x : PUnit} :
    as.forM f σ = .ok x σ' ↔ Sweep f as σ σ' := by
  induction as generalizing σ with
  | nil =>
      change (pure ⟨⟩ : Pass ω PUnit) σ = _ ↔ _
      rw [pure_eq_ok]
      constructor
      · rintro ⟨-, rfl⟩
        exact .nil
      · intro h
        cases h
        exact ⟨rfl, rfl⟩
  | cons a as ih =>
      change (f a >>= fun _ => as.forM f) σ = _ ↔ _
      rw [bind_eq_ok]
      constructor
      · rintro ⟨⟨⟩, σ₁, ha, has⟩
        exact .cons ha (ih.mp has)
      · intro h
        cases h with
        | cons head tail => exact ⟨_, _, head, ih.mpr tail⟩

theorem optionForM_eq_ok {f : α → Pass ω PUnit} {o : Option α} {x : PUnit} :
    o.forM f σ = .ok x σ' ↔ Sweep f o.toList σ σ' := by
  cases o with
  | none => exact @forM_eq_ok _ _ σ σ' f [] x
  | some a =>
      constructor
      · intro h
        exact .cons h .nil
      · intro h
        cases h with
        | cons head tail =>
            cases tail
            exact head

/-- Whether a pass succeeds and what it leaves is as it should be. -/
def check (m : Pass ω α) (σ : Stage ω) (p : α → Stage ω → Bool) : Bool :=
  match m σ with
  | .ok x σ' => p x σ'
  | .error _ _ => false

theorem exists_of_check {m : Pass ω α} {p : α → Stage ω → Bool} (h : m.check σ p = true) :
    ∃ x σ', m σ = .ok x σ' ∧ p x σ' = true := by
  unfold check at h
  cases hrun : m σ with
  | ok x σ' =>
      rw [hrun] at h
      exact ⟨x, σ', rfl, h⟩
  | error err σ' =>
      rw [hrun] at h
      cases h

end Pass

/-- A behaviour in which nothing happens: bodies leave sentences as they are, and views are empty. -/
def Behaviour.inert : Behaviour Unit where
  fresh := pure ⟨0⟩
  run _ _ s _ := pure s
  render _ _ _ := pure (Sentence.empty (Lexicon.new "" none) .firstLevel)
  callback _ _ := pure ()
  hookRender _ _ _ h := pure h
  hookDiff _ _ _ _ h := pure h
  hookRemove _ _ _ h := pure h
  create _ _ _ := pure ()
  view _ := pure (Sentence.empty (Lexicon.new "" none) .firstLevel)
  lifecycle _ _ := pure ()

/-- An engine that carries out the instructions under one name. -/
def Engine.plain : Engine := ⟨⟨[("ui", Lexicon.new "ui" none)]⟩, Config.default⟩

/-- A sentence of instructions for it. -/
def Sentence.plain (lexems : List (String × List Arg)) : Sentence :=
  ⟨Lexicon.new "ui" none, .firstLevel, lexems.map fun l => ⟨"ui", l.1, l.2⟩⟩

end Parlance
