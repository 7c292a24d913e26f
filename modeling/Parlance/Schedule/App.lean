import Parlance.Engine.Output
import Parlance.Schedule.Frames

/-! Apps: a view of snapshots, rendered under one node. A frame renders the pending snapshot by the engine
that the app was made with. If a frame fails, everything that it left under the node is taken away again,
except what was there before the app rendered anything, so that the next frame starts afresh. -/

namespace Parlance

structure App (σ : Type) where
  engine : Engine
  root : NodeId
  frames : Frames σ
  rendered : Option Rendered
  /-- The children that the node had before the first frame. -/
  foreign : List NodeId

/-- An app and the stage on which it plays. -/
structure Screen (ω σ : Type) where
  app : App σ
  stage : Stage ω

namespace App

variable {ω σ : Type}

def new (engine : Engine) (root : NodeId) : App σ := ⟨engine, root, .new, none, []⟩

def schedule (app : App σ) (snapshot : σ) : App σ := { app with frames := (app.frames.schedule snapshot).2 }

/-- A pass on the stage of an app. -/
def onStage {α : Type} (pass : Pass ω α) : EStateM (Halt PassError) (Screen ω σ) α := fun screen =>
  match pass screen.stage with
  | .ok a stage => .ok a { screen with stage }
  | .error e stage => .error e { screen with stage }

def edit (f : App σ → App σ) : EStateM (Halt PassError) (Screen ω σ) Unit :=
  modify fun screen => { screen with app := f screen.app }

/-- Takes every child of a node away that is not among those to be kept. -/
def clear (root : NodeId) (keep : List NodeId) (host : Host) : Host :=
  ((host.children root).filter (· ∉ keep)).foldl (fun h n => h.removeChild root n) host

variable (b : Behaviour ω)

/-- Renders the pending snapshot, and says whether there was one. -/
def frame (view : σ → Act ω Sentence) : EStateM (Halt PassError) (Screen ω σ) Bool := do
  let (snapshot, frames) := (← get).app.frames.take
  edit fun app => { app with frames }
  match snapshot with
  | none => pure false
  | some snapshot =>
      let s ← onStage (Pass.act (view snapshot))
      let app := (← get).app
      let foreign ← match app.rendered with
        | some _ => pure app.foreign
        | none => onStage do pure ((← Pass.host).children app.root)
      edit fun app => { app with rendered := none, foreign }
      let pass : Pass ω Rendered := app.engine.output b app.root s app.rendered
      let rendered ← onStage fun stage =>
        match pass stage with
        | .error (.error e) stage =>
            .error (.error e) { stage with host := clear app.root foreign stage.host }
        | result => result
      edit fun app => { app with rendered := some rendered }
      pure true

/-- Forgets the pending snapshot and removes what is rendered. -/
def unmount : EStateM (Halt PassError) (Screen ω σ) Unit := do
  let app := (← get).app
  edit fun app => { app with frames := app.frames.take.2, rendered := none }
  match app.rendered with
  | some r => onStage (Engine.remove b app.root r)
  | none => pure ()

end App

end Parlance
