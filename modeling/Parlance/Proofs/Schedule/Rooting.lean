import Parlance.Proofs.Engine.Sparing
import Parlance.Proofs.Engine.Standing
import Parlance.Schedule.App

/-! What an app does under its root. Whatever its frames come to, and in whatever order they succeed and fail, the
children that the root had before the first of them stay where they are; after them stands what is rendered, or
nothing. -/

namespace Parlance

open Pass

variable {ω σ : Type} {b : Behaviour ω}

/-- A node with the children that are to be kept, each with its parent; components from an index on are those of the
passes that are looked at. -/
structure Reserve where
  root : NodeId
  keep : List NodeId
  parent : NodeId → Option NodeId
  first : Nat

namespace Reserve

/-- The children that are to be kept are there. -/
structure Kept (G : Reserve) (h : Host) : Prop where
  inside : G.root.index < h.count
  made : ∀ n ∈ G.keep, n.index < h.count
  children : (h.children G.root).filter (· ∈ G.keep) = G.keep
  parent : ∀ n ∈ G.keep, h.parent n = G.parent n

variable {G : Reserve} {h h' : Host}

theorem Kept.minds (hkept : G.Kept h) (hminds : Host.Minds G.root G.keep h h') : G.Kept h' where
  inside := Nat.lt_of_lt_of_le hkept.inside hminds.count
  made n hn := Nat.lt_of_lt_of_le (hkept.made n hn) hminds.count
  children := hminds.children.trans hkept.children
  parent n hn := (hminds.parent n hn).trans (hkept.parent n hn)

/-- What is kept is among the children of the node. -/
theorem Kept.mem_children (hkept : G.Kept h) {n : NodeId} (hn : n ∈ G.keep) : n ∈ h.children G.root := by
  rw [← hkept.children] at hn
  exact (List.mem_filter.mp hn).1

variable (G) in
/-- The warden that keeps what is to be kept: whatever else is on the host may be taken away. -/
def warden : Warden where
  first := G.first
  sound := G.Kept
  turns := Host.Minds G.root G.keep
  owns h _ n := n.index < h.count ∧ n ∉ G.keep
  refl := .refl
  trans := .trans
  count := Host.Minds.count
  keeps := Kept.minds
  later hminds hown := ⟨Nat.lt_of_lt_of_le hown.1 hminds.count, hown.2⟩
  inside := And.left
  quiet _ htree hparent _ _ _ := .links htree hparent
  adds hkept _ _ hadds := ⟨.adds hkept.made hadds, by rw [hadds.puts.count]; exact Nat.lt_succ_self _, fun hmem =>
    Nat.lt_irrefl _ (hkept.made _ hmem)⟩

theorem drops : G.warden.Drops := by
  intro h h' p n _ _ hown hdrops
  refine .drops hdrops fun m hm => ?_
  rw [List.mem_singleton.mp hm]
  exact hown.2

/-- Hooks mind the children of the node. -/
theorem hooks {b : Behaviour ω} (hhooks : b.Spares G.root) : G.warden.Hooks b := fun hcall hkept =>
  ⟨hhooks.count hcall, by rw [hhooks.children hcall], fun n hn => hhooks.parent hcall n (hkept.mem_children hn)⟩

end Reserve

/-- With nothing rendered there is nothing but what is kept. -/
theorem Reserve.Kept.fenced {G : Reserve} {stage : Stage ω} (h : G.Kept stage.host)
    (hcleared : stage.host.children G.root = G.keep) : Fenced G.root G.keep stage [] :=
  ⟨h.inside, by simpa using hcleared, by simp, by simp, by simpa using h.made, by simp [elementsOf]⟩

namespace App

section Outcomes

variable {view : σ → Act ω Sentence} {screen screen' : Screen ω σ} {snapshot : σ} {s : Sentence} {w : ω}
variable {e : PassError} {r : Rendered} {stage : Stage ω}

/-- The children of the root that a frame is not to touch. -/
def spared (screen : Screen ω σ) : List NodeId :=
  match screen.app.rendered with
  | some _ => screen.app.foreign
  | none => screen.stage.host.children screen.app.root

/-- What a frame comes to. -/
theorem frame_eq : App.frame b view screen =
    match screen.app.frames.pending with
    | none => .ok false { screen with app := { screen.app with frames := screen.app.frames.take.2 } }
    | some snapshot =>
        match view snapshot screen.stage.world with
        | .error t w => .error (.trouble t) ⟨{ screen.app with frames := screen.app.frames.take.2 },
            screen.stage.inWorld w⟩
        | .ok s w =>
            match screen.app.engine.output b screen.app.root s screen.app.rendered (screen.stage.inWorld w) with
            | .ok r stage => .ok true ⟨{ screen.app with
                frames := screen.app.frames.take.2, rendered := some r, foreign := spared screen }, stage⟩
            | .error (.error e) stage => .error (.error e) ⟨{ screen.app with
                frames := screen.app.frames.take.2, rendered := none, foreign := spared screen },
                { stage with host := clear screen.app.root (spared screen) stage.host }⟩
            | .error (.trouble t) stage => .error (.trouble t) ⟨{ screen.app with
                frames := screen.app.frames.take.2, rendered := none, foreign := spared screen }, stage⟩ := by
  obtain ⟨⟨engine, root, ⟨pending, superseded⟩, rendered, foreign⟩, stage⟩ := screen
  cases pending with
  | none => rfl
  | some snapshot =>
      unfold App.frame
      simp only [bind, EStateM.bind, get, getThe, MonadStateOf.get, edit, modify, modifyGet,
        MonadStateOf.modifyGet, Frames.take]
      delta EStateM.get EStateM.modifyGet
      simp only [EStateM.bind, onStage, Pass.act]
      cases view snapshot stage.world with
      | error t w => rfl
      | ok s w =>
          cases rendered with
          | none =>
              simp only [EStateM.bind, onStage, pure, EStateM.pure, Pass.host, bind, get, getThe, MonadStateOf.get,
                spared, Stage.inWorld]
              delta EStateM.get
              dsimp only
              cases engine.output b root s none { stage with world := w } with
              | ok r stage => rfl
              | error h stage => cases h <;> rfl
          | some r =>
              simp only [EStateM.bind, onStage, pure, EStateM.pure, spared, Stage.inWorld]
              cases engine.output b root s (some r) { stage with world := w } with
              | ok r stage => rfl
              | error h stage => cases h <;> rfl

/-- What unmounting comes to. -/
theorem unmount_eq : App.unmount b screen =
    match screen.app.rendered with
    | none => .ok () { screen with app := { screen.app with frames := screen.app.frames.take.2, rendered := none } }
    | some r =>
        match Engine.remove b screen.app.root r screen.stage with
        | .ok _ stage => .ok () ⟨{ screen.app with frames := screen.app.frames.take.2, rendered := none }, stage⟩
        | .error h stage => .error h ⟨{ screen.app with frames := screen.app.frames.take.2, rendered := none }, stage⟩ := by
  obtain ⟨⟨engine, root, frames, rendered, foreign⟩, stage⟩ := screen
  cases rendered with
  | none => rfl
  | some r =>
      unfold App.unmount
      simp only [bind, EStateM.bind, get, getThe, MonadStateOf.get, edit, modify, modifyGet, MonadStateOf.modifyGet]
      delta EStateM.get EStateM.modifyGet
      simp only [onStage]
      cases Engine.remove b root r stage <;> rfl

end Outcomes

/-- When the root is cleared, what is to be kept is left. -/
theorem children_clear {G : Reserve} {host : Host} (h : G.Kept host) :
    (clear G.root G.keep host).children G.root = G.keep := by
  rw [clear, (Host.Takes.all _ _).children, if_pos rfl]
  refine Eq.trans (List.filter_congr fun n hn => ?_) h.children
  simp [List.mem_filter, hn]

theorem clear_safe {G : Reserve} {stage : Stage ω} (h : G.warden.Safe stage) :
    G.warden.Safe ⟨clear G.root G.keep stage.host, stage.instances, stage.world⟩ := by
  refine h.turned (.drops (.all _ _) fun n hn => ?_)
  simpa using (List.mem_filter.mp hn).2

/-- What is rendered stands under the root of an app, after the children that are kept. -/
structure Rooted (G : Reserve) (r : Rendered) (stage : Stage ω) : Prop where
  own : G.warden.Own stage.host G.root r.slots
  stands : ∃ cs posts, Retained .loose [(G.root, r)] stage cs posts ∧ Fenced G.root G.keep stage posts

theorem Rooted.children {G : Reserve} {r : Rendered} {stage : Stage ω} (h : Rooted G r stage) :
    stage.host.children G.root = G.keep ++ r.nodes stage.instances := by
  obtain ⟨cs, posts, hretained, hfenced⟩ := h.stands
  exact hfenced.nodes hretained

/-- An app between two of its operations. -/
structure Settled (G : Reserve) (screen : Screen ω σ) : Prop where
  root : screen.app.root = G.root
  safe : G.warden.Safe screen.stage
  cleared : screen.app.rendered = none → screen.stage.host.children G.root = G.keep
  spared : ∀ r, screen.app.rendered = some r → screen.app.foreign = G.keep
  rooted : ∀ r, screen.app.rendered = some r → Rooted G r screen.stage

section Passes

variable {G : Reserve} {r : Rendered} {rendered : Option Rendered} {stage stage' : Stage ω} {engine : Engine}
variable {s : Sentence}

/-- Nobody has touched the children of the root or the components. -/
theorem Rooted.outside (h : Rooted G r stage) (hminds : Host.Minds G.root G.keep stage.host stage'.host)
    (hchildren : stage'.host.children G.root = stage.host.children G.root)
    (hinstances : stage'.instances = stage.instances) : Rooted G r stage' := by
  obtain ⟨cs, posts, ⟨hpaired, hholds, hnodup, hposted⟩, hfenced⟩ := h.stands
  rw [← hinstances] at hholds hposted
  exact ⟨h.own.later hminds, cs, posts, ⟨hpaired, hholds, hnodup, hposted⟩,
    hfenced.keep hminds.count hchildren rfl fun n hn => .inl hn⟩

/-- A pass under the root, when all that stands there is fenced in, is made of moves. -/
theorem moves_of_carries {cs cs' : List InstanceId} {posts posts' : List Post} {os : Outputs} (hhooks : b.Spares G.root)
    (hfenced : Fenced G.root G.keep stage posts)
    (hcarries : Carries .loose b [G.root] stage cs posts os stage' cs' posts') :
    Moves .loose b stage posts stage' posts' := by
  refine hcarries.moves hhooks.count (fun n hn => ?_) fun _ _ => trivial
  rcases List.mem_cons.mp hn with rfl | hn
  · exact hfenced.inside
  · exact (hfenced.elements n hn).1

/-- A pass that succeeds leaves its output under the root. -/
theorem rooted_of_carries {cs cs' : List InstanceId} {posts posts' : List Post} (hhooks : b.Spares G.root)
    (hown : G.warden.Own stage'.host G.root r.slots) (hfenced : Fenced G.root G.keep stage posts)
    (hcarries : Carries .loose b [G.root] stage cs posts [(G.root, r)] stage' cs' posts') : Rooted G r stage' := by
  have hmoves := moves_of_carries hhooks hfenced hcarries
  exact ⟨hown, cs', posts', hcarries.retained, hmoves.preserves (fun hmove h => hmove.fenced hhooks h) hfenced⟩

/-- A pass of an app, whatever it comes to, does as a warden allows. -/
theorem output_guards {W : Warden} {root : NodeId} (hdrops : W.Drops) (hhooks : W.Hooks b)
    (hroot : root.index < stage.host.count) (hown : ∀ r, rendered = some r → W.Own stage.host root r.slots) :
    W.Guards True stage (engine.output b root s rendered) fun r σ => W.Own σ.host root r.slots := by
  cases rendered with
  | none => exact Engine.renderWithin_guards hhooks _ engine stage _ _ (.root hroot)
  | some previous =>
      exact Engine.diffWithin_guards hdrops hhooks _ stage engine _ _ previous (.root hroot) (hown previous rfl)

/-- What a frame renders stands under the root. -/
theorem output_rooted (hhooks : b.Spares G.root) (hsafe : G.warden.Safe stage)
    (hcleared : rendered = none → stage.host.children G.root = G.keep)
    (hrooted : ∀ r, rendered = some r → Rooted G r stage)
    (hpass : engine.output b G.root s rendered stage = .ok r stage') : Rooted G r stage' := by
  have hown : G.warden.Own stage'.host G.root r.slots := by
    have houtput : G.warden.Guards True stage (engine.output b G.root s rendered) _ :=
      output_guards Reserve.drops (Reserve.hooks hhooks) hsafe.host.inside fun r hr => (hrooted r hr).own
    have hguards := houtput stage (.refl stage) hsafe
    rw [hpass] at hguards
    exact hguards.2.2
  cases rendered with
  | none =>
      obtain ⟨cs', posts', hcarries⟩ := (Retained.empty stage).render (ρ := .loose) nofun hpass
      exact rooted_of_carries hhooks hown (hsafe.host.fenced (hcleared rfl)) hcarries
  | some previous =>
      obtain ⟨cs, posts, hretained, hfenced⟩ := (hrooted previous rfl).stands
      have hnow : Retained .loose ([] ++ (G.root, previous) :: []) stage cs posts := hretained
      obtain ⟨cs', posts', hcarries⟩ := hnow.diff nofun hpass nofun
      exact rooted_of_carries hhooks hown hfenced hcarries

/-- When the output is removed, what is kept is left. -/
theorem remove_cleared (hhooks : b.Spares G.root) (hrooted : Rooted G r stage)
    (hpass : Engine.remove b G.root r stage = .ok () stage') : stage'.host.children G.root = G.keep := by
  obtain ⟨cs, posts, hretained, hfenced⟩ := hrooted.stands
  have hnow : Retained .loose ([] ++ (G.root, r) :: []) stage cs posts := hretained
  obtain ⟨cs', posts', hcarries, -⟩ := hnow.remove hpass
  have hmoves := moves_of_carries hhooks hfenced hcarries
  have hlast := hmoves.preserves (fun hmove h => hmove.fenced hhooks h) hfenced
  have hposted : Posted .loose stage'.instances [] posts' := hcarries.retained.posted
  cases hposted
  rw [hlast.children, topsAt_nil, List.append_nil]

end Passes

section Operations

variable {G : Reserve} {screen screen' : Screen ω σ} (view : σ → Act ω Sentence)

/-- A frame settles, whether it succeeds or fails. -/
theorem Settled.frame (h : Settled G screen) (hhooks : b.Spares G.root) :
    match App.frame b view screen with
    | .ok done screen' => Settled G screen' ∧ done = screen.app.frames.isPending ∧
        (done = true → ∃ r, screen'.app.rendered = some r)
    | .error (.error _) screen' => Settled G screen' ∧ screen.app.frames.isPending = true ∧ screen'.app.rendered = none
    | .error (.trouble _) _ => True := by
  rw [frame_eq]
  cases hpending : screen.app.frames.pending with
  | none =>
      refine ⟨⟨h.root, h.safe, h.cleared, h.spared, h.rooted⟩, ?_, nofun⟩
      simp [Frames.isPending, hpending]
  | some snapshot =>
      have hisPending : screen.app.frames.isPending = true := by simp [Frames.isPending, hpending]
      dsimp only
      cases view snapshot screen.stage.world with
      | error t w => trivial
      | ok s w =>
          have hsafe : G.warden.Safe (screen.stage.inWorld w) := h.safe.turned (.refl _)
          have hrooted : ∀ r, screen.app.rendered = some r → Rooted G r (screen.stage.inWorld w) := fun r hr =>
            (h.rooted r hr).outside (.refl _) rfl rfl
          have hspared : App.spared screen = G.keep := by
            cases hr : screen.app.rendered with
            | none => simp only [App.spared, hr, h.root, h.cleared hr]
            | some r => simp only [App.spared, hr, h.spared r hr]
          have houtput : G.warden.Guards True (screen.stage.inWorld w)
              (screen.app.engine.output b G.root s screen.app.rendered) _ :=
            output_guards Reserve.drops (Reserve.hooks hhooks) hsafe.host.inside fun r hr => (hrooted r hr).own
          have hguards := houtput _ (.refl _) hsafe
          rw [hspared, h.root]
          dsimp only
          cases hpass : screen.app.engine.output b G.root s screen.app.rendered (screen.stage.inWorld w) with
          | ok r stage =>
              rw [hpass] at hguards
              have hnow := output_rooted hhooks hsafe h.cleared hrooted hpass
              refine ⟨⟨rfl, hguards.2.1, nofun, fun _ _ => rfl, ?_⟩, hisPending.symm, fun _ => ⟨r, rfl⟩⟩
              rintro r' ⟨⟩
              exact hnow
          | error cause stage =>
              rw [hpass] at hguards
              cases cause with
              | trouble t => trivial
              | error e =>
                  exact ⟨⟨rfl, clear_safe hguards.2.2, fun _ => children_clear hguards.2.2.host, nofun, nofun⟩,
                    hisPending, rfl⟩

/-- So does unmounting, and it cannot fail. -/
theorem Settled.unmount (h : Settled G screen) (hhooks : b.Spares G.root) :
    match App.unmount b screen with
    | .ok _ screen' => Settled G screen' ∧ screen'.app.rendered = none
    | .error (.error _) _ => False
    | .error (.trouble _) _ => True := by
  rw [unmount_eq]
  cases hr : screen.app.rendered with
  | none => exact ⟨⟨h.root, h.safe, fun _ => h.cleared hr, nofun, nofun⟩, rfl⟩
  | some r =>
      have hremove : G.warden.Guards False screen.stage (Engine.remove b G.root r) fun _ _ => True :=
        teardown_guards Reserve.drops (Reserve.hooks hhooks) h.safe.host.inside (h.rooted r hr).own
      have hguards := hremove screen.stage (.refl _) h.safe
      rw [h.root]
      dsimp only
      cases hpass : Engine.remove b G.root r screen.stage with
      | ok _ stage =>
          rw [hpass] at hguards
          exact ⟨⟨h.root, hguards.2.1, fun _ => remove_cleared hhooks (h.rooted r hr) hpass, nofun, nofun⟩, rfl⟩
      | error cause stage =>
          rw [hpass] at hguards
          cases cause with
          | trouble t => trivial
          | error e => exact hguards.1

end Operations

variable (b) in
/-- A run of operations on an app, with frames that may fail. In between the stage may change, but nobody touches the
children of the root or updates components. -/
inductive Runs (view : σ → Act ω Sentence) (start : Screen ω σ) : Screen ω σ → Prop
  | start : Runs view start start
  | schedule {screen : Screen ω σ} (hrun : Runs view start screen) (snapshot : σ) :
      Runs view start { screen with app := screen.app.schedule snapshot }
  | frame {screen screen' : Screen ω σ} {done : Bool} (hrun : Runs view start screen)
      (hframe : App.frame b view screen = .ok done screen') : Runs view start screen'
  | failed {screen screen' : Screen ω σ} {e : PassError} (hrun : Runs view start screen)
      (hframe : App.frame b view screen = .error (.error e) screen') : Runs view start screen'
  | unmount {screen screen' : Screen ω σ} (hrun : Runs view start screen)
      (hunmount : App.unmount b screen = .ok () screen') : Runs view start screen'
  | outside {screen : Screen ω σ} {stage : Stage ω} (hrun : Runs view start screen)
      (hcount : screen.stage.host.count ≤ stage.host.count)
      (hchildren : stage.host.children screen.app.root = screen.stage.host.children screen.app.root)
      (hparent : ∀ n ∈ stage.host.children screen.app.root, stage.host.parent n = screen.stage.host.parent n)
      (hinstances : stage.instances = screen.stage.instances) : Runs view start { screen with stage }

section Runs

variable {view : σ → Act ω Sentence} {engine : Engine} {root : NodeId} {stage : Stage ω} {screen : Screen ω σ}

/-- What an app has to leave alone when it starts on a stage. -/
def reserve (root : NodeId) (stage : Stage ω) : Reserve :=
  ⟨root, stage.host.children root, stage.host.parent, stage.instances.size⟩

theorem Runs.settled (hhooks : b.Spares root) (hroot : root.index < stage.host.count)
    (hmade : ∀ n ∈ stage.host.children root, n.index < stage.host.count)
    (hrun : Runs b view ⟨App.new engine root, stage⟩ screen) : Settled (reserve root stage) screen := by
  induction hrun with
  | start =>
      have hkept : (reserve root stage).Kept stage.host :=
        ⟨hroot, hmade, List.filter_eq_self.mpr fun n hn => decide_eq_true hn, fun _ _ => rfl⟩
      refine ⟨rfl, ⟨hkept, Nat.le_refl _, fun id i hlate hget => ?_⟩, fun _ => rfl, nofun, nofun⟩
      exact absurd (Array.getElem?_eq_some_iff.mp hget).1 (Nat.not_lt.mpr hlate)
  | schedule _ snapshot ih => exact ⟨ih.root, ih.safe, ih.cleared, ih.spared, ih.rooted⟩
  | frame _ hframe ih =>
      have hsettled := ih.frame view hhooks
      rw [hframe] at hsettled
      exact hsettled.1
  | failed _ hframe ih =>
      have hsettled := ih.frame view hhooks
      rw [hframe] at hsettled
      exact hsettled.1
  | unmount _ hunmount ih =>
      have hsettled := ih.unmount hhooks
      rw [hunmount] at hsettled
      exact hsettled.1
  | @outside screen stage' _ hcount hchildren hparent hinstances ih =>
      rw [ih.root] at hchildren hparent
      have hminds : Host.Minds root (reserve root stage).keep screen.stage.host stage'.host :=
        ⟨hcount, congrArg (List.filter _) hchildren, fun n hn => hparent n (hchildren ▸ ih.safe.host.mem_children hn)⟩
      have hsafe : (reserve root stage).warden.Safe ⟨stage'.host, screen.stage.instances, stage'.world⟩ :=
        ih.safe.turned hminds
      exact ⟨ih.root, ⟨hsafe.host, hinstances ▸ hsafe.table⟩, fun hr => hchildren.trans (ih.cleared hr), ih.spared,
        fun r hr => (ih.rooted r hr).outside hminds hchildren hinstances⟩

variable (b) in
/-- How an app stands under its root, where others stand before it. -/
structure Keeps (view : σ → Act ω Sentence) (others : List NodeId) (screen : Screen ω σ) : Prop where
  /-- The others come first, and then what is rendered. -/
  children : screen.stage.host.children screen.app.root =
    others ++ screen.app.rendered.elim [] (·.nodes screen.stage.instances)
  /-- A frame that succeeds has rendered if a snapshot was pending. -/
  frame : ∀ done screen', App.frame b view screen = .ok done screen' → done = screen.app.frames.isPending ∧
    screen'.app.root = screen.app.root ∧ (done = true → ∃ r, screen'.app.rendered = some r ∧
      screen'.stage.host.children screen.app.root = others ++ r.nodes screen'.stage.instances)
  /-- Without a snapshot there is nothing to fail. -/
  idle : screen.app.frames.isPending = false → ∃ screen', App.frame b view screen = .ok false screen'
  failed : ∀ e screen', App.frame b view screen = .error (.error e) screen' →
    screen'.app.rendered = none ∧ screen'.stage.host.children screen.app.root = others
  unmount : ∀ screen', App.unmount b screen = .ok () screen' →
    screen'.app.rendered = none ∧ screen'.stage.host.children screen.app.root = others
  /-- Unmounting does not fail. -/
  sure : ∀ e screen', App.unmount b screen ≠ .error (.error e) screen'

/-- An app never touches nodes that are not its own, whatever fails. -/
theorem app_keeps_others (hhooks : b.Spares root) (hroot : root.index < stage.host.count)
    (hmade : ∀ n ∈ stage.host.children root, n.index < stage.host.count)
    (hrun : Runs b view ⟨App.new engine root, stage⟩ screen) :
    screen.app.root = root ∧ Keeps b view (stage.host.children root) screen ∧
      ∀ n ∈ stage.host.children root, screen.stage.host.parent n = stage.host.parent n := by
  have hsettled := hrun.settled hhooks hroot hmade
  have hstands : ∀ {screen : Screen ω σ}, Settled (reserve root stage) screen → screen.stage.host.children root =
      stage.host.children root ++ screen.app.rendered.elim [] (·.nodes screen.stage.instances) := by
    intro screen h
    cases hr : screen.app.rendered with
    | none => rw [Option.elim_none, List.append_nil]; exact h.cleared hr
    | some r => exact (h.rooted r hr).children
  have hroot' : screen.app.root = root := hsettled.root
  have hframe := hsettled.frame view hhooks
  have hunmount := hsettled.unmount hhooks
  refine ⟨hroot', ⟨?_, fun done screen' hrun => ?_, fun hidle => ?_, fun e screen' hrun => ?_, fun screen' hrun => ?_,
    fun e screen' hrun => ?_⟩, hsettled.safe.host.parent⟩
  · rw [hroot']
    exact hstands hsettled
  · rw [hrun] at hframe
    obtain ⟨hnext, hdone, hrendered⟩ := hframe
    refine ⟨hdone, hnext.root.trans hroot'.symm, fun hd => ?_⟩
    obtain ⟨r, hr⟩ := hrendered hd
    have hchildren := hstands hnext
    rw [hr] at hchildren
    exact ⟨r, hr, by rw [hroot']; exact hchildren⟩
  · rw [frame_eq]
    cases hpending : screen.app.frames.pending with
    | none => exact ⟨_, rfl⟩
    | some snapshot => simp [Frames.isPending, hpending] at hidle
  · rw [hrun] at hframe
    exact ⟨hframe.2.2, by rw [hroot']; exact hframe.1.cleared hframe.2.2⟩
  · rw [hrun] at hunmount
    exact ⟨hunmount.2, by rw [hroot']; exact hunmount.1.cleared hunmount.2⟩
  · rw [hrun] at hunmount
    exact hunmount

end Runs

/-- A view of numbers: an even one is a text, and an odd one is two of them. -/
def parity (n : Nat) : Act Unit Sentence :=
  pure (.plain (if n % 2 = 0 then [("text", [.str "even"])] else [("text", [.str "odd"]), ("text", [.str "odd"])]))

/-- A stage with a banner under the root. -/
def bannered : Stage Unit :=
  ⟨Host.new.putNode (.element "aside") Host.root none (.createElement ⟨1⟩ "aside"), #[], ()⟩

/-- Hooks that do nothing spare every node. -/
theorem inert_spares (root : NodeId) : Behaviour.inert.Spares root := by
  constructor <;> rintro h w h' w' (⟨⟨⟩⟩ | ⟨⟨⟩⟩ | ⟨⟨⟩⟩) <;> first | exact Nat.le_refl _ | exact fun _ _ => rfl | rfl

/-- An even number is rendered after the banner; an odd one fails, and the banner is left. -/
theorem app_keeps_others_parity : ∃ screen screen' e,
    Runs Behaviour.inert parity ⟨App.new .plain Host.root, bannered⟩ screen ∧
    screen.stage.host.children Host.root = [⟨1⟩, ⟨2⟩] ∧
    App.frame Behaviour.inert parity screen = .error (.error e) screen' ∧ screen'.app.rendered = none ∧
    screen'.stage.host.children Host.root = [⟨1⟩] := by
  have hfirst : ∃ screen, App.frame Behaviour.inert parity
      ⟨(App.new .plain Host.root).schedule 0, bannered⟩ = .ok true screen ∧
      screen.stage.host.children Host.root = [⟨1⟩, ⟨2⟩] ∧ ∃ e screen', App.frame Behaviour.inert parity
        { screen with app := screen.app.schedule 1 } = .error (.error e) screen' := ⟨_, rfl, rfl, _, _, rfl⟩
  obtain ⟨screen, hframe, hchildren, e, screen', hfailed⟩ := hfirst
  have hrun : Runs Behaviour.inert parity ⟨App.new .plain Host.root, bannered⟩
      { screen with app := screen.app.schedule 1 } := .schedule (.frame (.schedule .start 0) hframe) 1
  obtain ⟨hroot, hkeeps, -⟩ := app_keeps_others (inert_spares Host.root) (by decide) (by decide) hrun
  have hlast := hkeeps.failed e screen' hfailed
  rw [hroot] at hlast
  exact ⟨_, screen', e, hrun, hchildren, hfailed, hlast⟩

end App

end Parlance
