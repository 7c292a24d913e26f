import Parlance.Proofs.Engine.Upholding
import Parlance.Proofs.Schedule.Rooting

/-! Everything that engines and apps do on one host: outputs are rendered, diffed and removed, components are shown
again, and apps have frames, all of it in any order and with any failures in between. The host stays a forest, and the
calls that it is told by are fair. -/

namespace Parlance

open Ledger

variable {ω σ : Type} {b : Behaviour ω} {failed : Prop} {os : Outputs} {stage stage' : Stage ω} {err : PassError}

namespace Upheld

/-- Nobody has moved a node or touched a component. -/
theorem outside (h : Upheld failed os stage) (hstill : stage.host.Still stage'.host)
    (hinstances : stage'.instances = stage.instances) : Upheld failed os stage' := by
  have hworks : (stage.host.rules failed).warden.turns stage.host stage'.host := hstill.works id
  have honward : (stage.host.rules failed).warden.Onward stage ⟨stage'.host, stage.instances, stage'.world⟩ := .onHost hworks
  have hafter := h.after (h.safe.turned (w := stage'.world) hworks) hworks (h.kept honward) fun hnot => by
    obtain ⟨os', cs, posts, hos, ⟨hpaired, hholds, hnodup, hposted⟩, hattached, hall⟩ := h.whole hnot
    exact ⟨os', cs, posts, hos, ⟨hpaired, hholds, hnodup, hposted⟩, hattached.keep hstill.parent, hall⟩
  obtain ⟨host, instances, world⟩ := stage'
  subst hinstances
  exact hafter.upheld

theorem inWorld (h : Upheld failed os stage) (w : ω) : Upheld failed os (stage.inWorld w) :=
  h.outside ⟨.refl _, fun _ => rfl, [], (List.append_nil _).symm, by simp⟩ rfl

section Output

variable {e : Engine} {p : NodeId} {s : Sentence} {rendered : Option Rendered} {r : Rendered} (hquiet : b.Quiet)
variable (h : Upheld failed (Outputs.under p rendered.toList ++ os) stage) (hp : p.index < stage.host.count)
include hquiet h hp

theorem output (hpass : e.output b p s rendered stage = .ok r stage') :
    Upholds failed stage failed ((p, r) :: os) stage' := by
  cases rendered with
  | none => exact render hquiet h hp hpass
  | some previous => exact diff hquiet h hpass

theorem output_failed (hpass : e.output b p s rendered stage = .error (.error err) stage') :
    Upholds failed stage True os stage' := by
  cases rendered with
  | none => exact render_failed hquiet h hp hpass
  | some previous => exact diff_failed hquiet h hpass

end Output

end Upheld

namespace App

variable {app app' : App σ} {view : σ → Act ω Sentence} {done : Bool}

/-- The output of an app stands under its root. -/
def outputs (app : App σ) : Outputs := Outputs.under app.root app.rendered.toList

/-- After a failure the root is cleared, and all that is taken away stands there. -/
theorem clear_upholds {start : Stage ω} (root : NodeId) (keep : List NodeId) (h : Upholds failed start True os stage) :
    Upholds failed start True os { stage with host := clear root keep stage.host } := by
  have hforest := h.upheld.forest
  have hworks : ∀ R : Rules, ¬ R.inside → R.warden.turns stage.host (clear root keep stage.host) := by
    intro R hinside
    refine .one (.drops (fun h => absurd h hinside) ((hforest.nodup root).filter _) (fun n hn => ?_) (.all _ _))
    have hparent := (hforest.links root n).mp (List.mem_filter.mp hn).1
    refine ⟨Nat.lt_of_not_le fun hle => ?_, .inl hparent⟩
    rw [Host.parent_of_count_le hle] at hparent
    cases hparent
  have honward : (stage.host.rules True).warden.Onward stage ⟨clear root keep stage.host, stage.instances, stage.world⟩ :=
    .onHost (hworks _ id)
  have hafter := h.upheld.after (h.upheld.safe.turned (w := stage.world) (hworks _ id)) (hworks _ id)
    (h.upheld.kept honward) fun hnot => absurd trivial hnot
  exact ⟨h.works.trans (hworks _ id), hafter.upheld⟩

section Frames

variable (hquiet : b.Quiet) (h : Upheld failed (app.outputs ++ os) stage)
include hquiet h

/-- A frame that succeeds leaves the output of its app in the place of the one before. -/
theorem frame_upholds (hroot : app.root.index < stage.host.count)
    (hframe : App.frame b view ⟨app, stage⟩ = .ok done ⟨app', stage'⟩) :
    app'.root = app.root ∧ Upholds failed stage failed (app'.outputs ++ os) stage' := by
  rw [frame_eq] at hframe
  dsimp only at hframe
  split at hframe
  next =>
    cases hframe
    exact ⟨rfl, .refl _, h⟩
  next =>
    split at hframe
    next => cases hframe
    next w _ =>
      have hnow : Upheld failed (app.outputs ++ os) (stage.inWorld w) := h.inWorld w
      split at hframe
      next r _ hpass =>
        cases hframe
        have hafter : Upholds failed (stage.inWorld w) failed ((app.root, r) :: os) stage' :=
          hnow.output hquiet hroot hpass
        exact ⟨rfl, hafter.works, hafter.upheld⟩
      all_goals cases hframe

/-- One that fails leaves nothing of its app. -/
theorem frame_failed_upholds (hroot : app.root.index < stage.host.count)
    (hframe : App.frame b view ⟨app, stage⟩ = .error (.error err) ⟨app', stage'⟩) :
    app'.root = app.root ∧ Upholds failed stage True (app'.outputs ++ os) stage' := by
  rw [frame_eq] at hframe
  dsimp only at hframe
  split at hframe
  next => cases hframe
  next =>
    split at hframe
    next => cases hframe
    next w _ =>
      have hnow : Upheld failed (app.outputs ++ os) (stage.inWorld w) := h.inWorld w
      split at hframe
      next => cases hframe
      next hpass =>
        cases hframe
        have hafter : Upholds failed (stage.inWorld w) True os _ := hnow.output_failed hquiet hroot hpass
        have hcleared := clear_upholds app.root (spared ⟨app, stage⟩) hafter
        exact ⟨rfl, hcleared.works, hcleared.upheld⟩
      next => cases hframe

theorem unmount_upholds (hunmount : App.unmount b ⟨app, stage⟩ = .ok () ⟨app', stage'⟩) :
    app'.root = app.root ∧ Upholds failed stage failed (app'.outputs ++ os) stage' := by
  rw [unmount_eq] at hunmount
  obtain ⟨engine, root, frames, rendered, foreign⟩ := app
  cases rendered with
  | none =>
      cases hunmount
      exact ⟨rfl, .refl _, h⟩
  | some r =>
      dsimp only at hunmount
      split at hunmount
      next hpass =>
        cases hunmount
        exact ⟨rfl, h.remove hquiet hpass⟩
      next => cases hunmount

theorem unmount_sure : App.unmount b ⟨app, stage⟩ ≠ .error (.error err) ⟨app', stage'⟩ := by
  intro hunmount
  rw [unmount_eq] at hunmount
  obtain ⟨engine, root, frames, rendered, foreign⟩ := app
  cases rendered with
  | none => cases hunmount
  | some r =>
      dsimp only at hunmount
      split at hunmount
      next => cases hunmount
      next hpass =>
        cases hunmount
        exact h.remove_sure hquiet hpass

end Frames

end App

/-- A stage with the outputs that are kept on it, each with its parent, and with the apps that play on it. -/
structure Desk (ω σ : Type) where
  stage : Stage ω
  outputs : Outputs
  apps : List (App σ)

namespace Desk

/-- All outputs, those of the apps included. -/
def all (d : Desk ω σ) : Outputs := d.outputs ++ d.apps.flatMap App.outputs

variable (b) in
/-- An operation that succeeds. -/
inductive Operates : Desk ω σ → Desk ω σ → Prop
  | render {stage stage' : Stage ω} {outputs : Outputs} {apps : List (App σ)} {e : Engine} {p : NodeId} {s : Sentence}
      {r : Rendered} (hp : p.index < stage.host.count) (hpass : e.render b p s stage = .ok r stage') :
      Operates ⟨stage, outputs, apps⟩ ⟨stage', (p, r) :: outputs, apps⟩
  | diff {stage stage' : Stage ω} {before after : Outputs} {apps : List (App σ)} {e : Engine} {p : NodeId} {s : Sentence}
      {r r' : Rendered} (hpass : e.diff b p s r stage = .ok r' stage') :
      Operates ⟨stage, before ++ (p, r) :: after, apps⟩ ⟨stage', before ++ (p, r') :: after, apps⟩
  | update {stage stage' : Stage ω} {outputs : Outputs} {apps : List (App σ)} {id : InstanceId}
      (hpass : Engine.updateComponent b id stage = .ok () stage') :
      Operates ⟨stage, outputs, apps⟩ ⟨stage', outputs, apps⟩
  | remove {stage stage' : Stage ω} {before after : Outputs} {apps : List (App σ)} {p : NodeId} {r : Rendered}
      (hpass : Engine.remove b p r stage = .ok () stage') :
      Operates ⟨stage, before ++ (p, r) :: after, apps⟩ ⟨stage', before ++ after, apps⟩
  | frame {stage stage' : Stage ω} {outputs : Outputs} {before after : List (App σ)} {app app' : App σ}
      {view : σ → Act ω Sentence} {done : Bool} (hpass : App.frame b view ⟨app, stage⟩ = .ok done ⟨app', stage'⟩) :
      Operates ⟨stage, outputs, before ++ app :: after⟩ ⟨stage', outputs, before ++ app' :: after⟩
  | unmount {stage stage' : Stage ω} {outputs : Outputs} {before after : List (App σ)} {app app' : App σ}
      (hpass : App.unmount b ⟨app, stage⟩ = .ok () ⟨app', stage'⟩) :
      Operates ⟨stage, outputs, before ++ app :: after⟩ ⟨stage', outputs, before ++ app' :: after⟩

variable (b) in
/-- An operation that ends in an error. An output that was to be diffed is lost. -/
inductive Fails : Desk ω σ → Desk ω σ → Prop
  | render {stage stage' : Stage ω} {outputs : Outputs} {apps : List (App σ)} {e : Engine} {p : NodeId} {s : Sentence}
      {err : PassError} (hp : p.index < stage.host.count) (hpass : e.render b p s stage = .error (.error err) stage') :
      Fails ⟨stage, outputs, apps⟩ ⟨stage', outputs, apps⟩
  | diff {stage stage' : Stage ω} {before after : Outputs} {apps : List (App σ)} {e : Engine} {p : NodeId} {s : Sentence}
      {r : Rendered} {err : PassError} (hpass : e.diff b p s r stage = .error (.error err) stage') :
      Fails ⟨stage, before ++ (p, r) :: after, apps⟩ ⟨stage', before ++ after, apps⟩
  | update {stage stage' : Stage ω} {outputs : Outputs} {apps : List (App σ)} {id : InstanceId} {err : PassError}
      (hpass : Engine.updateComponent b id stage = .error (.error err) stage') :
      Fails ⟨stage, outputs, apps⟩ ⟨stage', outputs, apps⟩
  | remove {stage stage' : Stage ω} {before after : Outputs} {apps : List (App σ)} {p : NodeId} {r : Rendered}
      {err : PassError} (hpass : Engine.remove b p r stage = .error (.error err) stage') :
      Fails ⟨stage, before ++ (p, r) :: after, apps⟩ ⟨stage', before ++ after, apps⟩
  | frame {stage stage' : Stage ω} {outputs : Outputs} {before after : List (App σ)} {app app' : App σ}
      {view : σ → Act ω Sentence} {err : PassError}
      (hpass : App.frame b view ⟨app, stage⟩ = .error (.error err) ⟨app', stage'⟩) :
      Fails ⟨stage, outputs, before ++ app :: after⟩ ⟨stage', outputs, before ++ app' :: after⟩
  | unmount {stage stage' : Stage ω} {outputs : Outputs} {before after : List (App σ)} {app app' : App σ}
      {err : PassError} (hpass : App.unmount b ⟨app, stage⟩ = .error (.error err) ⟨app', stage'⟩) :
      Fails ⟨stage, outputs, before ++ app :: after⟩ ⟨stage', outputs, before ++ app' :: after⟩

variable (b) in
/-- Any operations from a stage on, and whether one of them has failed. In between apps are made and snapshots are
scheduled, and whatever else is done on the host leaves nodes where they are. -/
inductive Session (start : Stage ω) : Prop → Desk ω σ → Prop
  | start : Session start False ⟨start, [], []⟩
  | app {failed : Prop} {d : Desk ω σ} (hrun : Session start failed d) (engine : Engine) {root : NodeId}
      (hroot : root.index < d.stage.host.count) : Session start failed { d with apps := .new engine root :: d.apps }
  | schedule {failed : Prop} {stage : Stage ω} {outputs : Outputs} {before after : List (App σ)} {app : App σ}
      (hrun : Session start failed ⟨stage, outputs, before ++ app :: after⟩) (snapshot : σ) :
      Session start failed ⟨stage, outputs, before ++ app.schedule snapshot :: after⟩
  | outside {failed : Prop} {d : Desk ω σ} {stage : Stage ω} (hrun : Session start failed d)
      (hstill : d.stage.host.Still stage.host) (hinstances : stage.instances = d.stage.instances) :
      Session start failed { d with stage }
  | operates {failed : Prop} {d d' : Desk ω σ} (hrun : Session start failed d) (hstep : Operates b d d') :
      Session start failed d'
  | fails {failed : Prop} {d d' : Desk ω σ} (hrun : Session start failed d) (hstep : Fails b d d') :
      Session start True d'

/-- All outputs of a desk are upheld, and so are the roots of its apps. -/
structure Upkept (failed : Prop) (d : Desk ω σ) : Prop where
  upheld : Upheld failed d.all d.stage
  roots : ∀ root ∈ d.apps.map App.root, root.index < d.stage.host.count

variable {d d' : Desk ω σ} {outputs before after : Outputs} {apps : List (App σ)}

theorem all_output (o : NodeId × Rendered) :
    (all ⟨stage, before ++ o :: after, apps⟩).Perm (o :: all ⟨stage, before ++ after, apps⟩) := by
  simp [all, List.perm_middle]

theorem all_app {before after : List (App σ)} (app : App σ) :
    (all ⟨stage, outputs, before ++ app :: after⟩).Perm (app.outputs ++ all ⟨stage, outputs, before ++ after⟩) := by
  simp only [all, List.flatMap_append, List.flatMap_cons]
  rw [← List.append_assoc outputs, ← List.append_assoc outputs]
  exact List.perm_append_comm_assoc _ _ _

/-- An operation that upholds all outputs and leaves the roots of the apps is fine. -/
theorem Upkept.step {failed' : Prop} (h : Upkept failed d) (hupholds : Upholds failed d.stage failed' os d'.stage)
    (hos : d'.all.Perm os) (happs : d'.apps.map App.root = d.apps.map App.root) :
    Host.Works (d.stage.host.rules failed) d.stage.host d'.stage.host ∧ Upkept failed' d' := by
  refine ⟨hupholds.works, hupholds.upheld.perm hos.symm, fun root hroot => ?_⟩
  exact Nat.lt_of_lt_of_le (h.roots root (happs ▸ hroot)) hupholds.works.later.count

section Steps

variable (hquiet : b.Quiet) (h : Upkept failed d)
include hquiet h

/-- An operation works by the rules, and nothing is amiss after it if nothing was before. -/
theorem Upkept.operates (hstep : Operates b d d') :
    Host.Works (d.stage.host.rules failed) d.stage.host d'.stage.host ∧ Upkept failed d' := by
  cases hstep with
  | render hp hpass => exact h.step (h.upheld.render hquiet hp hpass) (.refl _) rfl
  | diff hpass => exact h.step ((h.upheld.perm (all_output _)).diff hquiet hpass) (all_output _) rfl
  | update hpass => exact h.step (h.upheld.update hquiet hpass) (.refl _) rfl
  | remove hpass => exact h.step ((h.upheld.perm (all_output _)).remove hquiet hpass) (.refl _) rfl
  | frame hpass =>
      obtain ⟨hroot, hupholds⟩ := App.frame_upholds hquiet (h.upheld.perm (all_app _)) (h.roots _ (by simp)) hpass
      exact h.step hupholds (all_app _) (by simp [hroot])
  | unmount hpass =>
      obtain ⟨hroot, hupholds⟩ := App.unmount_upholds hquiet (h.upheld.perm (all_app _)) hpass
      exact h.step hupholds (all_app _) (by simp [hroot])

/-- So does one that fails. -/
theorem Upkept.fails (hstep : Fails b d d') :
    Host.Works (d.stage.host.rules failed) d.stage.host d'.stage.host ∧ Upkept True d' := by
  cases hstep with
  | render hp hpass => exact h.step (h.upheld.render_failed hquiet hp hpass) (.refl _) rfl
  | diff hpass => exact h.step ((h.upheld.perm (all_output _)).diff_failed hquiet hpass) (.refl _) rfl
  | update hpass => exact h.step (h.upheld.update_failed hquiet hpass) (.refl _) rfl
  | remove hpass => exact absurd hpass ((h.upheld.perm (all_output _)).remove_sure hquiet)
  | frame hpass =>
      obtain ⟨hroot, hupholds⟩ :=
        App.frame_failed_upholds hquiet (h.upheld.perm (all_app _)) (h.roots _ (by simp)) hpass
      exact h.step hupholds (all_app _) (by simp [hroot])
  | unmount hpass => exact absurd hpass (App.unmount_sure hquiet (h.upheld.perm (all_app _)))

end Steps

theorem Session.upkept {start : Stage ω} (hquiet : b.Quiet) (hforest : start.host.Forest)
    (hempty : start.instances = #[]) (hrun : Session b start failed d) : Upkept failed d := by
  induction hrun with
  | start =>
      have hnone : ∀ (id : InstanceId) (i : Instance), start.instances[id.index]? ≠ some i := by simp [hempty]
      have hsafe : (start.host.rules False).warden.Safe start :=
        ⟨Nat.le_refl _, Nat.zero_le _, fun id i _ hi => absurd hi (hnone id i)⟩
      have hwhole : Whole [] start :=
        ⟨[], [], [], .refl _, .empty start, ⟨nofun, List.nodup_nil⟩, fun id i hi => absurd hi (hnone id i)⟩
      exact ⟨⟨hforest, hsafe, by simp [all], by simp [all], fun _ => hwhole⟩, by simp⟩
  | app _ engine hroot ih =>
      refine ⟨ih.upheld, fun root hmem => ?_⟩
      rcases List.mem_cons.mp hmem with rfl | hmem
      · exact hroot
      · exact ih.roots root hmem
  | @schedule _ _ _ before after app _ snapshot ih =>
      exact ⟨(ih.upheld.perm (all_app app)).perm (all_app (app.schedule snapshot)).symm,
        by simpa [App.schedule] using ih.roots⟩
  | outside _ hstill hinstances ih =>
      refine ⟨ih.upheld.outside hstill hinstances, fun root hroot => ?_⟩
      rw [hstill.tree.count]
      exact ih.roots root hroot
  | operates _ hstep ih => exact (ih.operates hquiet hstep).2
  | fails _ hstep ih => exact (ih.fails hquiet hstep).2

/-- Whatever engines and apps do on a forest, and whatever fails, it stays one. In every operation, what is put somewhere
has been made in that same operation, and what is taken away is taken off the parent that it has, unless it has none any
more after something has failed. -/
theorem forest_kept {start : Stage ω} (hquiet : b.Quiet) (hforest : start.host.Forest) (hempty : start.instances = #[])
    (hrun : Session b start failed d) : d.stage.host.Forest ∧ ∀ d', Operates b d d' ∨ Fails b d d' →
      d'.stage.host.Forest ∧ Host.Receives (Fair ⟨d.stage.host.count, failed, False⟩) d.stage.host d'.stage.host := by
  have hupkept := hrun.upkept hquiet hforest hempty
  refine ⟨hupkept.upheld.forest, fun d' hstep => ?_⟩
  have hworks : Host.Works (d.stage.host.rules failed) d.stage.host d'.stage.host :=
    hstep.elim (fun hstep => (hupkept.operates hquiet hstep).1) fun hstep => (hupkept.fails hquiet hstep).1
  exact ⟨hworks.forest hupkept.upheld.forest, hworks.receives⟩

/-- Hooks that do nothing leave the tree alone. -/
theorem inert_quiet : Behaviour.inert.Quiet := by
  rintro h w h' w' (⟨⟨⟩⟩ | ⟨⟨⟩⟩ | ⟨⟨⟩⟩) <;> exact ⟨.refl _, fun _ => rfl, [], (List.append_nil _).symm, by simp⟩

/-- An app that fails takes away what a guest has put under its root. The host is a forest still, and if the guest is
removed then, its node may be taken off the root once more. -/
theorem forest_kept_guest : ∃ (d : Desk Unit Nat) (r : Rendered), Session Behaviour.inert ⟨.new, #[], ()⟩ True d ∧
    d.outputs = [(Host.root, r)] ∧ r.slots.map Slot.mark = [.nodes [⟨2⟩]] ∧ d.stage.host.parent ⟨2⟩ = none ∧
    d.stage.host.Forest ∧ ∀ d', Operates Behaviour.inert d d' ∨ Fails Behaviour.inert d d' → d'.stage.host.Forest ∧
      Host.Receives (Fair ⟨d.stage.host.count, True, False⟩) d.stage.host d'.stage.host := by
  have hpasses : ∃ app stage₁ r stage₂ err app' stage₃,
      App.frame Behaviour.inert App.parity ⟨(App.new .plain Host.root).schedule 0, ⟨.new, #[], ()⟩⟩ =
        .ok true ⟨app, stage₁⟩ ∧ Host.root.index < stage₁.host.count ∧
      Engine.plain.render Behaviour.inert Host.root (.plain [("text", [.str "guest"])]) stage₁ = .ok r stage₂ ∧
      r.slots.map Slot.mark = [.nodes [⟨2⟩]] ∧
      App.frame Behaviour.inert App.parity ⟨app.schedule 1, stage₂⟩ = .error (.error err) ⟨app', stage₃⟩ ∧
      stage₃.host.parent ⟨2⟩ = none := ⟨_, _, _, _, _, _, _, rfl, by decide, rfl, rfl, rfl, rfl⟩
  obtain ⟨app, stage₁, r, stage₂, err, app', stage₃, hframe, hroot, hrender, hslots, hfailed, hparent⟩ := hpasses
  have hscheduled : Session Behaviour.inert ⟨.new, #[], ()⟩ False
      ⟨⟨.new, #[], ()⟩, [], [] ++ (App.new Engine.plain Host.root).schedule 0 :: []⟩ :=
    .schedule (.app .start .plain (by decide)) 0
  have hframed : Session Behaviour.inert ⟨.new, #[], ()⟩ False ⟨stage₁, [], [] ++ app :: []⟩ :=
    .operates hscheduled (.frame hframe)
  have hrendered : Session Behaviour.inert ⟨.new, #[], ()⟩ False ⟨stage₂, [(Host.root, r)], [] ++ app :: []⟩ :=
    .operates hframed (.render hroot hrender)
  have hrun : Session Behaviour.inert ⟨.new, #[], ()⟩ True ⟨stage₃, [(Host.root, r)], [] ++ app' :: []⟩ :=
    .fails (.schedule hrendered 1) (.frame hfailed)
  exact ⟨_, r, hrun, rfl, hslots, hparent, forest_kept inert_quiet Host.forest_new rfl hrun⟩

end Desk

end Parlance
