import Parlance.Engine.Output
import Parlance.Proofs.Engine.Renewal

/-! The life of a component, over whole runs. A behaviour is run together with a journal of what components
were asked and told; whatever the order of the passes, the journal tells of every component the same story:
it is mounted, shown again any number of times, and unmounted as soon as nothing retained leads to it. -/

namespace Parlance

open Pass

/-- What components were asked and told, oldest first. -/
abbrev Journal := List (InstanceId × Cue)

namespace Journal

/-- The part of a journal that is about one component. -/
def about (j : Journal) (id : InstanceId) : List Cue := (j.filter (·.1 = id)).map (·.2)

theorem about_append (j j' : Journal) (id : InstanceId) : about (j ++ j') id = about j id ++ about j' id := by
  simp [about]

theorem about_own (id : InstanceId) (cue : Cue) : about [(id, cue)] id = [cue] := by
  simp [about]

theorem about_other {id other : InstanceId} (cue : Cue) (hne : other ≠ id) : about [(id, cue)] other = [] := by
  simp [about, hne.symm]

/-- The entries of one removal: everyone is told before, and everyone is told after, in the same order. -/
def ofRemoval (ids : List InstanceId) : Journal :=
  ids.map (·, .willUnmount) ++ ids.map (·, .didUnmount)

/-- A journal in which components are unmounted only by removals, each carried out in one go. -/
inductive Orderly : Journal → Prop
  | nil : Orderly []
  | single {j : Journal} (id : InstanceId) {cue : Cue} (hwill : cue ≠ .willUnmount) (hdid : cue ≠ .didUnmount)
      (hj : Orderly j) : Orderly (j ++ [(id, cue)])
  | removal {j : Journal} {ids : List InstanceId} (hnodup : ids.Nodup) (hj : Orderly j) :
      Orderly (j ++ ofRemoval ids)

end Journal

section Stories

/-- A component has been mounted, and has been shown again, with new props or without. -/
def Lived (story : List Cue) : Prop :=
  ∃ updates : List (List Cue), (∀ update ∈ updates, update = [.setProps, .view] ∨ update = [.view]) ∧
    story = [.willMount, .view, .didMount] ++ updates.flatten

/-- A component has lived and has been unmounted. -/
def Ended (story : List Cue) : Prop := ∃ life, Lived life ∧ story = life ++ [.willUnmount, .didUnmount]

theorem Lived.snoc {life update : List Cue} (h : Lived life)
    (hupdate : update = [.setProps, .view] ∨ update = [.view]) : Lived (life ++ update) := by
  obtain ⟨updates, hupdates, rfl⟩ := h
  refine ⟨updates ++ [update], fun u hu => ?_, by simp⟩
  rcases List.mem_append.mp hu with hu | hu
  · exact hupdates u hu
  · exact List.mem_singleton.mp hu ▸ hupdate

/-- What a component has heard in each phase. -/
def Phase.Story : Phase → List Cue → Prop
  | unborn, story => story = []
  | told, story => story = [.willMount]
  | shown, story => story = [.willMount, .view]
  | live, story => Lived story
  | asked, story => ∃ life, Lived life ∧ story = life ++ [.setProps]
  | leaving, story => ∃ life, Lived life ∧ story = life ++ [.willUnmount]
  | gone, story => Ended story

/-- A story goes on as the phase does. -/
theorem Phase.Moves.story {p p' : Phase} {cue : Cue} {story : List Cue} (hmoves : p.Moves cue p')
    (h : p.Story story) : p'.Story (story ++ [cue]) := by
  cases hmoves with
  | willMount => exact congrArg (· ++ _) h
  | firstView => exact congrArg (· ++ _) h
  | didMount => exact ⟨[], by simp, congrArg (· ++ _) h⟩
  | setProps => exact ⟨story, h, rfl⟩
  | answer =>
      obtain ⟨life, hlife, rfl⟩ := h
      rw [List.append_assoc]
      exact hlife.snoc (.inl rfl)
  | view => exact Lived.snoc h (.inr rfl)
  | willUnmount => exact ⟨story, h, rfl⟩
  | didUnmount =>
      obtain ⟨life, hlife, rfl⟩ := h
      exact ⟨life, hlife, by simp⟩

/-- A life that has not ended is not one that has. -/
theorem Lived.not_ended {story : List Cue} (h : Lived story) : ¬ Ended story := by
  rintro ⟨life, -, hstory⟩
  obtain ⟨updates, hupdates, rfl⟩ := h
  have hlast := congrArg (Cue.didUnmount ∈ ·) hstory
  simp only [List.mem_append, List.mem_cons, List.mem_flatten, List.not_mem_nil, or_false, or_true, eq_iff_iff,
    iff_true, reduceCtorEq, false_or] at hlast
  obtain ⟨update, hupdate, hmem⟩ := hlast
  rcases hupdates update hupdate with rfl | rfl <;> simp at hmem

end Stories

namespace Act

variable {ω α : Type}

/-- The same action, with the journal left as it is. -/
def silently (action : Act ω α) : Act (ω × Journal) α := fun (w, j) =>
  match action w with
  | .ok a w => .ok a (w, j)
  | .error t w => .error t (w, j)

/-- The same action, with an entry in the journal before it. -/
def noted (id : InstanceId) (cue : Cue) (action : Act ω α) : Act (ω × Journal) α := fun (w, j) =>
  match action w with
  | .ok a w => .ok a (w, j ++ [(id, cue)])
  | .error t w => .error t (w, j ++ [(id, cue)])

theorem silently_eq_ok {action : Act ω α} {w : ω × Journal} {x : α} {w' : ω × Journal} :
    action.silently w = .ok x w' ↔ action w.1 = .ok x w'.1 ∧ w'.2 = w.2 := by
  obtain ⟨w, j⟩ := w
  obtain ⟨w', j'⟩ := w'
  unfold silently
  cases h : action w with
  | ok a w₁ => simp only [h, EStateM.Result.ok.injEq, Prod.mk.injEq]; grind
  | error t w₁ => simp [h]

theorem noted_eq_ok {id : InstanceId} {cue : Cue} {action : Act ω α} {w : ω × Journal} {x : α}
    {w' : ω × Journal} :
    action.noted id cue w = .ok x w' ↔ action w.1 = .ok x w'.1 ∧ w'.2 = w.2 ++ [(id, cue)] := by
  obtain ⟨w, j⟩ := w
  obtain ⟨w', j'⟩ := w'
  unfold noted
  cases h : action w with
  | ok a w₁ => simp only [h, EStateM.Result.ok.injEq, Prod.mk.injEq]; grind
  | error t w₁ => simp [h]

end Act

/-- A behaviour with a journal of what components are asked and told. -/
def Behaviour.journaled {ω : Type} (b : Behaviour ω) : Behaviour (ω × Journal) where
  fresh := Act.silently b.fresh
  run body init s args := Act.silently (b.run body init s args)
  render f item index := Act.silently (b.render f item index)
  callback f args := Act.silently (b.callback f args)
  hookRender hook node args h := Act.silently (b.hookRender hook node args h)
  hookDiff hook node args old h := Act.silently (b.hookDiff hook node args old h)
  hookRemove hook node args h := Act.silently (b.hookRemove hook node args h)
  create factory id props := Act.silently (b.create factory id props)
  view id := Act.noted id .view (b.view id)
  lifecycle id l := Act.noted id l.cue (b.lifecycle id l)

/-- The host and the journal of a stage: what an observer sees of it. -/
def Stage.seen {ω : Type} (σ : Stage (ω × Journal)) : Host × Journal := (σ.host, σ.world.2)

namespace Pass

variable {ω α β : Type}

/-- The stage at which a pass ends, also when it fails. -/
def after (m : Pass ω α) (σ : Stage ω) : Stage ω :=
  match m σ with
  | .ok _ σ' => σ'
  | .error _ σ' => σ'

theorem after_of_ok {m : Pass ω α} {σ σ' : Stage ω} {x : α} (h : m σ = .ok x σ') : m.after σ = σ' := by
  rw [after, h]

theorem after_bind {m : Pass ω α} {f : α → Pass ω β} {σ : Stage ω} :
    (m >>= f).after σ = match m σ with
      | .ok x σ' => (f x).after σ'
      | .error _ σ' => σ' := by
  change (match EStateM.bind m f σ with | .ok _ σ' => σ' | .error _ σ' => σ') = _
  rw [EStateM.bind]
  cases m σ <;> rfl

theorem bind_of_error {m : Pass ω α} {f : α → Pass ω β} {σ σ' σ'' : Stage ω} {err : Halt PassError} {x : β}
    (h : m σ = .error err σ') : (m >>= f) σ ≠ .ok x σ'' := by
  intro hok
  obtain ⟨_, _, hm, _⟩ := bind_eq_ok.mp hok
  rw [h] at hm
  cases hm

/-- A pass in which an observer sees nothing happen, whether it fails or not. -/
def Unseen {ω α : Type} (m : Pass (ω × Journal) α) : Prop := ∀ σ, (m.after σ).seen = σ.seen

namespace Unseen

variable {m : Pass (ω × Journal) α}

theorem pure (x : α) : Unseen (pure x : Pass (ω × Journal) α) := fun _ => rfl

theorem bind {f : α → Pass (ω × Journal) β} (h : Unseen m) (hf : ∀ x, Unseen (f x)) :
    Unseen (m >>= f) := by
  intro σ
  have hm := h σ
  rw [after] at hm
  rw [after_bind]
  cases hrun : m σ with
  | ok x σ₁ =>
      rw [hrun] at hm
      exact (hf x σ₁).trans hm
  | error err σ₁ =>
      rw [hrun] at hm
      exact hm

theorem instances : Unseen (instances : Pass (ω × Journal) (Array Instance)) := fun _ => rfl

end Unseen

end Pass

section Unseen

variable {ω : Type} {b : Behaviour ω}

/-- Hooks that are removed leave the host alone. -/
def Behaviour.QuietHooks (b : Behaviour ω) : Prop :=
  ∀ ⦃hook node args h w h' w'⦄, b.hookRemove hook node args h w = .ok h' w' → h' = h

theorem hookRemove_unseen (hquiet : b.QuietHooks) (hook : Identity) (node : NodeId) (args : List Arg) :
    Unseen (actOnHost (b.journaled.hookRemove hook node args)) := by
  rintro ⟨h, t, w, j⟩
  cases hrun : b.hookRemove hook node args h w with
  | ok h' w' =>
      obtain rfl := hquiet hrun
      simp [after, actOnHost, Behaviour.journaled, Act.silently, hrun, Stage.seen]
  | error t w' => simp [after, actOnHost, Behaviour.journaled, Act.silently, hrun, Stage.seen]

mutual

theorem Slot.seek_unseen (hquiet : b.QuietHooks) {within : InstanceId → Pass (ω × Journal) (List InstanceId)}
    (hwithin : ∀ id, Unseen (within id)) (lexem : Lexem) :
    ∀ slot : Slot, Unseen (slot.seek b.journaled within lexem)
  | .element _ kids => seekAll_unseen hquiet hwithin kids
  | .branch _ developed => by
      unfold Slot.seek
      cases developed with
      | none => exact .pure _
      | some r => exact Rendered.seek_unseen hquiet hwithin r
  | .each _ items => seekAll_unseen hquiet hwithin items
  | .compound r => Rendered.seek_unseen hquiet hwithin r
  | .component id => hwithin id
  | .hook node => by
      unfold Slot.seek
      cases lexem.hookArg with
      | error err => exact .pure _
      | ok hook => exact .bind (hookRemove_unseen hquiet hook node lexem.hookArgs) fun _ => .pure _
  | .skipped | .attribute | .effect | .text _ | .listener _ | .raw _ _ => .pure _

theorem Rendered.seek_unseen (hquiet : b.QuietHooks) {within : InstanceId → Pass (ω × Journal) (List InstanceId)}
    (hwithin : ∀ id, Unseen (within id)) : ∀ r : Rendered, Unseen (r.seekWith b.journaled within)
  | ⟨_, sentence, slots⟩ => seekSlots_unseen hquiet hwithin sentence.lexems slots

theorem seekSlots_unseen (hquiet : b.QuietHooks) {within : InstanceId → Pass (ω × Journal) (List InstanceId)}
    (hwithin : ∀ id, Unseen (within id)) (lexems : List Lexem) :
    ∀ slots : List Slot, Unseen (seekSlots b.journaled within lexems slots)
  | [] => by
      cases lexems <;> exact .pure _
  | slot :: slots => by
      cases lexems with
      | nil => exact .pure _
      | cons lexem lexems =>
          exact .bind (Slot.seek_unseen hquiet hwithin lexem slot) fun _ =>
            .bind (seekSlots_unseen hquiet hwithin lexems slots) fun _ => .pure _

theorem seekAll_unseen (hquiet : b.QuietHooks) {within : InstanceId → Pass (ω × Journal) (List InstanceId)}
    (hwithin : ∀ id, Unseen (within id)) :
    ∀ rs : List Rendered, Unseen (seekAll b.journaled within rs)
  | [] => .pure _
  | r :: rs => .bind (Rendered.seek_unseen hquiet hwithin r) fun _ =>
      .bind (seekAll_unseen hquiet hwithin rs) fun _ => .pure _

end

theorem seekComponent_unseen (hquiet : b.QuietHooks) : ∀ (depth : Nat) (id : InstanceId),
    Unseen (seekComponent b.journaled depth id)
  | 0, _ => .pure _
  | depth + 1, id => by
      unfold seekComponent
      refine .bind .instances fun t => ?_
      cases t[id.index]? with
      | none => exact .pure _
      | some i =>
          cases hdeveloped : i.developed with
          | none => simpa only [hdeveloped] using .bind (.pure _) fun _ => .pure _
          | some r =>
              simpa only [hdeveloped] using
                .bind (Rendered.seek_unseen hquiet (seekComponent_unseen hquiet depth) r) fun _ => .pure _

end Unseen

section Removal

variable {ω : Type} {b : Behaviour ω} {σ : Stage (ω × Journal)}

/-- A removal in one go, however it ends: the components are told in order before the host is changed, and in
the same order after it. -/
def InOneGo (cs : List InstanceId) (detach : Host → Host) (m : Pass (ω × Journal) Unit)
    (σ : Stage (ω × Journal)) : Prop :=
  ∃ before after : List InstanceId, before <+: cs ∧ after <+: cs ∧
    (m.after σ).world.2 = σ.world.2 ++ before.map (·, .willUnmount) ++ after.map (·, .didUnmount) ∧
    ((after = [] ∧ (m.after σ).host = σ.host) ∨ (before = cs ∧ (m.after σ).host = detach σ.host)) ∧
    (∀ x σ', m σ = .ok x σ' → after = cs ∧ σ'.host = detach σ.host)

/-- Everyone is told in order, until someone breaks it off. -/
theorem tell_after {cue : Cue} {f : InstanceId → Pass (ω × Journal) PUnit}
    (hf : ∀ id σ, ((f id).after σ).seen = (σ.host, σ.world.2 ++ [(id, cue)])) (cs : List InstanceId)
    (σ : Stage (ω × Journal)) :
    ∃ told, told <+: cs ∧ ((cs.forM f).after σ).seen = (σ.host, σ.world.2 ++ told.map (·, cue)) ∧
      ∀ x σ', cs.forM f σ = .ok x σ' → told = cs := by
  induction cs generalizing σ with
  | nil => exact ⟨[], List.prefix_refl _, by rw [List.map_nil, List.append_nil]; rfl, fun _ _ _ => rfl⟩
  | cons id cs ih =>
      have hhead := hf id σ
      change ∃ told, told <+: id :: cs ∧ ((f id >>= fun _ => cs.forM f).after σ).seen = _ ∧ _
      rw [after] at hhead
      rw [after_bind]
      cases hrun : f id σ with
      | error err σ₁ =>
          rw [hrun] at hhead
          exact ⟨[id], by simp, hhead, fun x σ' h => absurd h (bind_of_error hrun)⟩
      | ok x σ₁ =>
          rw [hrun] at hhead
          obtain ⟨told, htold, hseen, hok⟩ := ih σ₁
          refine ⟨id :: told, by simpa using htold, hseen.trans ?_, fun x σ' h => ?_⟩
          · simp only [Stage.seen, Prod.mk.injEq] at hhead
            simp [hhead.1, hhead.2]
          · obtain ⟨_, σ₂, hfirst, hrest⟩ := bind_eq_ok.mp h
            rw [hrun] at hfirst
            cases hfirst
            rw [hok _ _ hrest]

theorem lifecycle_after (id : InstanceId) (l : Lifecycle) (σ : Stage (ω × Journal)) :
    ((act (b.journaled.lifecycle id l)).after σ).seen = (σ.host, σ.world.2 ++ [(id, l.cue)]) := by
  obtain ⟨h, t, w, j⟩ := σ
  cases hrun : b.lifecycle id l w <;>
    simp [after, act, Behaviour.journaled, Act.noted, hrun, Stage.seen]

theorem unmounting_inOneGo (cs : List InstanceId) (detach : Array Instance → Host → Host)
    (σ : Stage (ω × Journal)) :
    InOneGo cs (detach σ.instances) (unmounting b.journaled cs detach) σ := by
  have hdid : ∀ id (σ : Stage (ω × Journal)), ((do
      act (b.journaled.lifecycle id .didUnmount)
      editInstance id fun c => { c with developed := none, refs := [] } : Pass _ Unit).after σ).seen =
        (σ.host, σ.world.2 ++ [(id, .didUnmount)]) := by
    intro id σ
    have hcall := lifecycle_after (b := b) id .didUnmount σ
    rw [after] at hcall
    rw [after_bind]
    cases hrun : act (b.journaled.lifecycle id .didUnmount) σ <;> rw [hrun] at hcall <;> exact hcall
  have hwill : ∀ id (σ : Stage (ω × Journal)),
      ((act (b.journaled.lifecycle id .willUnmount)).after σ).seen =
        (σ.host, σ.world.2 ++ [(id, .willUnmount)]) := fun id => lifecycle_after id .willUnmount
  obtain ⟨before, hbefore, hseen, hok⟩ := tell_after hwill cs σ
  unfold unmounting InOneGo
  rw [after_bind]
  rw [after] at hseen
  cases hrun : cs.forM (fun id => act (b.journaled.lifecycle id .willUnmount)) σ with
  | error err σ₁ =>
      rw [hrun] at hseen
      simp only [Stage.seen, Prod.mk.injEq] at hseen
      exact ⟨before, [], hbefore, List.nil_prefix, by simpa using hseen.2, .inl ⟨rfl, hseen.1⟩,
        fun x σ' h => absurd h (bind_of_error hrun)⟩
  | ok x σ₁ =>
      rw [hrun] at hseen
      simp only [Stage.seen, Prod.mk.injEq] at hseen
      obtain rfl := hok _ _ hrun
      obtain ⟨w, -, rfl⟩ := told_of_sweep (forM_eq_ok.mp hrun)
      obtain ⟨after, hafter, hseen', hok'⟩ :=
        tell_after hdid before ((σ.inWorld w).onHost (detach σ.instances))
      simp only [Stage.seen, Prod.mk.injEq] at hseen'
      refine ⟨before, after, List.prefix_refl _, hafter, ?_, .inr ⟨rfl, ?_⟩, fun x σ' h => ?_⟩
      · exact hseen'.2.trans (by rw [← hseen.2]; rfl)
      · exact hseen'.1.trans (congrArg _ hseen.1)
      · obtain ⟨_, σ₂, hfirst, hrest⟩ := bind_eq_ok.mp h
        rw [hrun] at hfirst
        cases hfirst
        exact ⟨hok' _ _ hrest, (congrArg Stage.host (after_of_ok hrest)).symm.trans hseen'.1⟩

/-- A removal that seeks what it removes without being seen. -/
theorem inOneGo_of_seek (b : Behaviour ω) (σ : Stage (ω × Journal))
    {seek : Pass (ω × Journal) (List InstanceId)} (cs : List InstanceId) (detach : Array Instance → Host → Host)
    (hunseen : Unseen seek)
    (hfound : ∀ found σ', seek σ = .ok found σ' → found = cs ∧ σ'.instances = σ.instances) :
    InOneGo cs (detach σ.instances) (seek >>= fun found => unmounting b.journaled found detach) σ := by
  have hseen := hunseen σ
  unfold InOneGo
  rw [after_bind]
  rw [after] at hseen
  cases hrun : seek σ with
  | error err σ₁ =>
      rw [hrun] at hseen
      simp only [Stage.seen, Prod.mk.injEq] at hseen
      exact ⟨[], [], List.nil_prefix, List.nil_prefix, by simpa using hseen.2, .inl ⟨rfl, hseen.1⟩,
        fun x σ' h => absurd h (bind_of_error hrun)⟩
  | ok found σ₁ =>
      rw [hrun] at hseen
      simp only [Stage.seen, Prod.mk.injEq] at hseen
      obtain ⟨rfl, htable⟩ := hfound found σ₁ hrun
      have hgo := unmounting_inOneGo (b := b) found detach σ₁
      rw [InOneGo, htable, hseen.1, hseen.2] at hgo
      obtain ⟨before, after, hbefore, hafter, hjournal, hhost, hok⟩ := hgo
      refine ⟨before, after, hbefore, hafter, hjournal, hhost, fun x σ' h => ?_⟩
      obtain ⟨_, σ₂, hfirst, hrest⟩ := bind_eq_ok.mp h
      rw [hrun] at hfirst
      cases hfirst
      exact hok x σ' hrest

/-- Removing an output tells what it holds in one go. -/
theorem teardown_inOneGo (hquiet : b.QuietHooks) {parent : NodeId} {r : Rendered} {cs : List InstanceId}
    (hpaired : r.Paired) (hholds : Holds σ.instances r.slots cs) :
    InOneGo cs (r.detachWith (detachComponent σ.instances σ.instances.size) parent)
      (teardown b.journaled parent r) σ := by
  have hgo := inOneGo_of_seek b σ cs
    (fun t h => r.detachWith (detachComponent t t.size) parent h)
    (Rendered.seek_unseen hquiet (seekComponent_unseen hquiet σ.instances.size) r) fun found σ' h => by
      rw [seekWith_eq] at h
      obtain ⟨rfl, hunhooking⟩ := seekSlots_ok hholds rfl hpaired.symm (by omega) h
      exact ⟨rfl, hunhooking.instances_eq⟩
  exact hgo

/-- Removing what belongs to one slot tells what it holds in one go. -/
theorem teardownSlot_inOneGo (hquiet : b.QuietHooks) {parent : NodeId} {lexem : Lexem} {slot : Slot}
    {cs : List InstanceId} (hholds : Holds σ.instances [slot] cs) :
    InOneGo cs (fun h => slot.detach (detachComponent σ.instances σ.instances.size) parent lexem h)
      (teardownSlot b.journaled parent lexem slot) σ := by
  have hgo := inOneGo_of_seek b σ cs
    (fun t h => slot.detach (detachComponent t t.size) parent lexem h)
    (Slot.seek_unseen hquiet (seekComponent_unseen hquiet σ.instances.size) lexem slot) fun found σ' h => by
      have hslots : seekSlots b.journaled (seekComponent b.journaled σ.instances.size) [lexem] [slot] σ =
          .ok found σ' := by
        simp only [seekSlots, bind_eq_ok, pure_eq_ok]
        exact ⟨found, σ', h, [], σ', ⟨rfl, rfl⟩, List.append_nil _, rfl⟩
      obtain ⟨rfl, hunhooking⟩ := seekSlots_ok hholds rfl rfl (by omega) hslots
      exact ⟨rfl, hunhooking.instances_eq⟩
  exact hgo

end Removal

section Runs

variable {ω : Type}

/-- The chronicle that a journal gives. -/
def journalChronicle (ω : Type) : Chronicle (ω × Journal) where
  phase w id p := p.Story (w.2.about id)
  calm w := w.2.Orderly

theorem keeps_of_silently {α : Type} {action : Act ω α} :
    (journalChronicle ω).Silent action.silently := by
  intro w x w' h
  have hjournal := (Act.silently_eq_ok.mp h).2
  simp only [Chronicle.Keeps, journalChronicle, hjournal]
  exact ⟨fun _ _ h => h, id⟩

theorem heard_of_noted {α : Type} {action : Act ω α} {id : InstanceId} {cue : Cue} {w w' : ω × Journal} {x : α}
    (h : action.noted id cue w = .ok x w') : (journalChronicle ω).Heard id cue w w' := by
  have hjournal := (Act.noted_eq_ok.mp h).2
  constructor
  · intro p p' hstory hmoves
    have hnext := hmoves.story hstory
    simpa [journalChronicle, hjournal, Journal.about_append, Journal.about_own] using hnext
  · intro other p hne hstory
    simpa [journalChronicle, hjournal, Journal.about_append, Journal.about_other cue hne] using hstory
  · intro hwill hdid hcalm
    simpa [journalChronicle, hjournal] using hcalm.single id hwill hdid

theorem journal_of_told {b : Behaviour ω} {l : Lifecycle} {ids : List InstanceId} {w w' : ω × Journal}
    (h : Told b.journaled l ids w w') : w'.2 = w.2 ++ ids.map (·, l.cue) := by
  induction h with
  | nil => simp
  | cons head _ ih => rw [ih, (Act.noted_eq_ok.mp head).2, List.map_cons, List.append_assoc]; rfl

/-- The journal is a watch on what components go through. -/
def journalWatch (b : Behaviour ω) : Watch b.journaled where
  toChronicle := journalChronicle ω
  run _ _ _ _ := keeps_of_silently
  render _ _ _ := keeps_of_silently
  callback _ _ := keeps_of_silently
  hookRender _ _ _ _ := keeps_of_silently
  hookDiff _ _ _ _ _ := keeps_of_silently
  hookRemove _ _ _ _ := keeps_of_silently
  create _ _ _ := keeps_of_silently
  view h := heard_of_noted h
  lifecycle h := heard_of_noted h
  removal hnodup hwill hdid hcalm := by
    have hjournal := journal_of_told hdid
    rw [journal_of_told hwill, List.append_assoc] at hjournal
    change Journal.Orderly _
    rw [hjournal]
    exact .removal hnodup hcalm

/-- Runs of successful passes, in any order, with the outputs that are retained. A run begins before anything
has been mounted; between two passes the host and the world may change in any way. -/
inductive LifeRun (b : Behaviour ω) : List Rendered → Stage (ω × Journal) → Prop
  | start (h : Host) (w : ω) : LifeRun b [] ⟨h, #[], w, []⟩
  | outside {rs : List Rendered} {σ : Stage (ω × Journal)} (h : Host) (w : ω) (hrun : LifeRun b rs σ) :
      LifeRun b rs ⟨h, σ.instances, w, σ.world.2⟩
  | render {rs : List Rendered} {σ σ' : Stage (ω × Journal)} {e : Engine} {parent : NodeId} {s : Sentence}
      {r : Rendered} (hrun : LifeRun b rs σ) (hpass : e.render b.journaled parent s σ = .ok r σ') :
      LifeRun b (rs ++ [r]) σ'
  | diff {before after : List Rendered} {σ σ' : Stage (ω × Journal)} {e : Engine} {parent : NodeId}
      {s : Sentence} {previous r : Rendered} (hrun : LifeRun b (before ++ previous :: after) σ)
      (hpass : e.diff b.journaled parent s previous σ = .ok r σ') : LifeRun b (before ++ r :: after) σ'
  | update {rs : List Rendered} {σ σ' : Stage (ω × Journal)} {id : InstanceId} (hrun : LifeRun b rs σ)
      (hpass : Engine.updateComponent b.journaled id σ = .ok () σ') : LifeRun b rs σ'
  | remove {before after : List Rendered} {σ σ' : Stage (ω × Journal)} {parent : NodeId} {r : Rendered}
      (hrun : LifeRun b (before ++ r :: after) σ)
      (hpass : Engine.remove b.journaled parent r σ = .ok () σ') : LifeRun b (before ++ after) σ'

/-- What holds between two passes: what is retained holds the components that are mounted, and all others have
been unmounted. -/
structure Settled (rs : List Rendered) (σ : Stage (ω × Journal)) (cs : List InstanceId) : Prop where
  paired : ∀ r ∈ rs, r.Paired
  holds : Holds σ.instances (slotsOf rs) cs
  mounted : Mounted (journalChronicle ω) σ cs
  gone : ∀ id : InstanceId, id.index < σ.instances.size → id ∉ cs →
    (journalChronicle ω).phase σ.world id .gone ∧ Vacant σ.instances id
  calm : σ.world.2.Orderly

variable {b : Behaviour ω} {rs rs' : List Rendered} {σ σ' : Stage (ω × Journal)} {cs cs' : List InstanceId}

theorem Settled.exchange (h : Settled rs σ cs) (hpaired : ∀ r ∈ rs', r.Paired)
    (hholds : Holds σ'.instances (slotsOf rs') cs')
    (hexchange : Exchange (journalChronicle ω) σ cs σ' cs') : Settled rs' σ' cs' where
  paired := hpaired
  holds := hholds
  mounted := hexchange.mounted
  gone id hlt hnot := by
    by_cases hcs : id ∈ cs
    · exact hexchange.gone id (.inl hcs) hlt hnot
    by_cases hold : id.index < σ.instances.size
    · obtain ⟨hgone, hvacant⟩ := h.gone id hold hcs
      exact ⟨hexchange.kept id hold hcs _ hgone, (hexchange.agree id hold hcs).vacant hvacant⟩
    · exact hexchange.gone id (.inr (Nat.le_of_not_lt hold)) hlt hnot
  calm := hexchange.calm h.calm

theorem Settled.renew (h : Settled rs σ cs) (hrenewal : Renewal (journalChronicle ω) σ rs σ' rs') :
    ∃ cs', Settled rs' σ' cs' := by
  obtain ⟨hpaired, hturn⟩ := hrenewal h.paired
  obtain ⟨cs', hholds, hexchange⟩ := hturn cs h.holds h.mounted
  exact ⟨cs', h.exchange hpaired hholds hexchange⟩

/-- A component that is not mounted any more cannot be updated, so an update is one of a mounted component. -/
theorem Settled.update (h : Settled rs σ cs) {id : InstanceId}
    (hpass : Engine.updateComponent b.journaled id σ = .ok () σ') : ∃ cs', Settled rs σ' cs' := by
  have hstep := Engine.update_ok hpass
  by_cases hid : id ∈ cs
  · obtain ⟨before, own, after, rfl, hown, hreplace⟩ := h.holds.zoom hid
    have hsub : own.Sublist (before ++ own ++ after) := by simp
    have hmounted := h.mounted.of_sublist hsub
    have hidOwn : id ∈ own := Holds.mem_of_reachable (.here List.mem_cons_self) hown
    obtain ⟨own', hown', hexchange⟩ := update_exchange (journalWatch b)
      (diffWithin_renewal (journalWatch b)) hstep hown hmounted.nodup
      (fun other hother _ => hmounted.live other hother) hmounted.unborn (hmounted.live id hidOwn) .view
    have hbound : ∀ other ∈ before ++ after, other.index < σ.instances.size := fun other hother =>
      h.holds.index_lt other (by grind)
    have hframed := hexchange.frame h.mounted hbound
    have hagree : ∀ other ∈ before ++ after, Agree σ.instances σ'.instances other := fun other hother =>
      hexchange.agree other (hbound other hother) (not_mem_between h.mounted.nodup other hother)
    exact ⟨_, h.exchange h.paired (hreplace _ own' hown' hagree hexchange.source) hframed⟩
  · cases hstep with
    | absent => exact ⟨cs, h⟩
    | viewed hpresent hdeveloped =>
        have hlt := (Array.getElem?_eq_some_iff.mp hpresent).1
        have hvacant := (h.gone id hlt hid).2 _ hpresent
        rw [hdeveloped] at hvacant
        cases hvacant

/-- Every run leaves matters settled. -/
theorem LifeRun.settled (h : LifeRun b rs σ) : ∃ cs, Settled rs σ cs := by
  induction h with
  | start h w =>
      exact ⟨[], by simp, .nil, ⟨List.nodup_nil, by simp, fun _ _ => rfl⟩, by simp, .nil⟩
  | outside h w _ ih =>
      obtain ⟨cs, hsettled⟩ := ih
      exact ⟨cs, hsettled.paired, hsettled.holds, ⟨hsettled.mounted.nodup, hsettled.mounted.live,
        hsettled.mounted.unborn⟩, hsettled.gone, hsettled.calm⟩
  | @render rs _ _ _ _ _ _ _ hpass ih =>
      obtain ⟨cs, hsettled⟩ := ih
      have hrenewal := (renderWithin_renewal (journalWatch b) hpass).append_left rs
      rw [List.append_nil] at hrenewal
      exact hsettled.renew hrenewal
  | @diff before after _ _ _ _ _ _ _ _ hpass ih =>
      obtain ⟨cs, hsettled⟩ := ih
      have hrenewal := (diffWithin_renewal (journalWatch b) hpass).frame before after
      simp only [List.append_assoc, List.singleton_append] at hrenewal
      exact hsettled.renew hrenewal
  | update _ hpass ih =>
      obtain ⟨cs, hsettled⟩ := ih
      exact hsettled.update hpass
  | @remove before after _ _ _ _ _ hpass ih =>
      obtain ⟨cs, hsettled⟩ := ih
      have hrenewal := (teardown_renewal (journalWatch b) hpass).frame before after
      simp only [List.append_assoc, List.singleton_append, List.nil_append] at hrenewal
      exact hsettled.renew hrenewal

/-- What a run has made of every component, and what it retains. -/
structure Protocol (b : Behaviour ω) (rs : List Rendered) (σ : Stage (ω × Journal)) : Prop where
  /-- A component that has been made has been mounted, and either lives or has been unmounted. -/
  story : ∀ id : InstanceId, id.index < σ.instances.size →
    Lived (σ.world.2.about id) ∨ Ended (σ.world.2.about id)
  unborn : ∀ id : InstanceId, σ.instances.size ≤ id.index → σ.world.2.about id = []
  /-- A component has been unmounted exactly when nothing retained leads to it. -/
  unmounted : ∀ id : InstanceId, id.index < σ.instances.size →
    (Ended (σ.world.2.about id) ↔ ¬ Reachable σ.instances (slotsOf rs) id)
  orderly : σ.world.2.Orderly
  /-- What is retained holds no component twice, and would be removed in one go. -/
  removal : ∀ r ∈ rs, ∃ cs, Holds σ.instances r.slots cs ∧ cs.Nodup ∧ ∀ parent,
    InOneGo cs (r.detachWith (detachComponent σ.instances σ.instances.size) parent)
      (Engine.remove b.journaled parent r) σ

theorem Settled.protocol (hquiet : b.QuietHooks) (h : Settled rs σ cs) : Protocol b rs σ where
  story id hlt := by
    by_cases hid : id ∈ cs
    · exact .inl (h.mounted.live id hid)
    · exact .inr (h.gone id hlt hid).1
  unborn id hid := h.mounted.unborn id hid
  unmounted id hlt := by
    rw [← h.holds.mem_iff_reachable]
    constructor
    · intro hended hid
      exact Lived.not_ended (h.mounted.live id hid) hended
    · intro hid
      exact (h.gone id hlt hid).1
  orderly := h.calm
  removal r hr := by
    obtain ⟨before, after, rfl⟩ := List.append_of_mem hr
    have hholds := h.holds
    simp only [slotsOf_append, slotsOf_cons] at hholds
    obtain ⟨outer, inner, rfl, -, hinner⟩ := hholds.split
    obtain ⟨own, rest, rfl, hown, -⟩ := hinner.split
    have hsub : own.Sublist (outer ++ (own ++ rest)) :=
      (List.sublist_append_left _ _).trans (List.sublist_append_right _ _)
    exact ⟨own, hown, h.mounted.nodup.sublist hsub, fun parent =>
      teardown_inOneGo hquiet (h.paired r hr) hown⟩

/-- The protocol of components: it holds after every run, and whatever an output or a slot holds at any stage
is removed from there in one go. -/
theorem lifecycle_protocol (b : Behaviour ω) (hquiet : b.QuietHooks) :
    (∀ rs σ, LifeRun b rs σ → Protocol b rs σ) ∧
    (∀ (σ : Stage (ω × Journal)) parent r cs, Rendered.Paired r → Holds σ.instances r.slots cs →
      InOneGo cs (r.detachWith (detachComponent σ.instances σ.instances.size) parent)
        (teardown b.journaled parent r) σ) ∧
    (∀ (σ : Stage (ω × Journal)) parent lexem slot cs, Holds σ.instances [slot] cs →
      InOneGo cs (fun h => slot.detach (detachComponent σ.instances σ.instances.size) parent lexem h)
        (teardownSlot b.journaled parent lexem slot) σ) := by
  refine ⟨fun rs σ hrun => ?_, fun σ parent r cs => ?_, fun σ parent lexem slot cs => ?_⟩
  · obtain ⟨cs, hsettled⟩ := hrun.settled
    exact hsettled.protocol hquiet
  · exact teardown_inOneGo hquiet
  · exact teardownSlot_inOneGo hquiet

/-- The protocol of a component that is mounted and removed again. -/
theorem lifecycle_protocol_mounted :
    ∃ r σ σ', LifeRun .inert [r] σ ∧ LifeRun .inert [] σ' ∧ σ'.instances.size = 1 ∧ Protocol .inert [r] σ ∧
      Protocol .inert [] σ' := by
  have hquiet : Behaviour.inert.QuietHooks := by
    rintro _ _ _ _ _ _ _ ⟨⟩
    rfl
  have hprotocol := (lifecycle_protocol Behaviour.inert hquiet).1
  have hcheck : Pass.check (do
      let r ← Engine.plain.render Behaviour.inert.journaled Host.root
        (.plain [("component", [.component ⟨"Counter", ⟨1⟩⟩, .null])])
      Engine.remove Behaviour.inert.journaled Host.root r
      Pass.instances) ⟨.new, #[], (), []⟩ (fun table _ => table.size == 1) = true := by rfl
  obtain ⟨table, σ', hpass, hsize⟩ := exists_of_check hcheck
  simp only [bind_eq_ok, instances_eq_ok] at hpass
  obtain ⟨r, σ, hrender, _, _, hremove, rfl, rfl⟩ := hpass
  have hmounted : LifeRun .inert [r] σ := .render (.start Host.new ()) hrender
  have hremoved : LifeRun .inert ([] ++ []) _ := .remove hmounted hremove
  exact ⟨r, σ, _, hmounted, hremoved, by simpa using hsize, hprotocol _ _ hmounted, hprotocol _ _ hremoved⟩

end Runs

end Parlance
