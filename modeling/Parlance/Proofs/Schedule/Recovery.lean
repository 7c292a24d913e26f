import Parlance.Proofs.Engine.Joining
import Parlance.Proofs.Engine.Replaying
import Parlance.Proofs.Schedule.Rooting

/-! What comes after a frame that failed. The root is cleared of its children, and the next frame renders its sentence
as the first frame of a new app would. But what the failed frame has left on the root itself, entries and listeners,
is not taken back: the next frame finds it there. -/

namespace Parlance

open Pass

variable {ω σ : Type} {b : Behaviour ω}

/-- The warden that counts listeners: whatever is done, numbers that are bound have been given out. -/
def Warden.listening (first : Nat) : Warden where
  first := first
  sound _ := True
  turns h h' := h.count ≤ h'.count ∧ h.Relistens h'
  owns h _ n := n.index < h.count
  refl h := ⟨Nat.le_refl _, .refl h⟩
  trans hfirst hsecond := ⟨Nat.le_trans hfirst.1 hsecond.1, hfirst.2.trans hsecond.2⟩
  count := And.left
  keeps _ _ := trivial
  later hturns hown := Nat.lt_of_lt_of_le hown hturns.1
  inside := id
  quiet _ htree _ _ _ hrelistens := ⟨Nat.le_of_eq htree.count.symm, hrelistens⟩
  adds _ _ _ hadds := by
    have hcount := hadds.puts.count
    refine ⟨⟨Nat.le_of_succ_le (Nat.le_of_eq hcount.symm), .of_same hadds.bound hadds.targets⟩, ?_⟩
    rw [hcount]
    exact Nat.lt_succ_self _

theorem Warden.listening_drops {first : Nat} : (Warden.listening first).Drops := fun _ _ _ hdrops =>
  ⟨Nat.le_of_eq hdrops.takes.count.symm, .of_same hdrops.bound hdrops.targets⟩

theorem Behaviour.Deaf.hooks (hdeaf : b.Deaf) {first : Nat} : (Warden.listening first).Hooks b := fun hcall _ =>
  ⟨(hdeaf hcall).1, .of_same (hdeaf hcall).2.1 (hdeaf hcall).2.2⟩

namespace App

variable {view : σ → Act ω Sentence}

section Frames

variable {G : Reserve} {screen screen' failed : Screen ω σ} {e : PassError} {done : Bool}

/-- Whether a frame succeeds or fails, what is bound afterwards has been given out. -/
theorem Settled.relistens (view : σ → Act ω Sentence) (h : Settled G screen) (hdeaf : b.Deaf) :
    match App.frame b view screen with
    | .ok _ screen' => screen.stage.host.Relistens screen'.stage.host
    | .error (.error _) screen' => screen.stage.host.Relistens screen'.stage.host
    | .error (.trouble _) _ => True := by
  rw [frame_eq]
  cases hpending : screen.app.frames.pending with
  | none => exact .refl _
  | some snapshot =>
      dsimp only
      cases view snapshot screen.stage.world with
      | error t w => trivial
      | ok s w =>
          have howns : ∀ p n, G.warden.owns screen.stage.host p n →
              (Warden.listening G.first).owns screen.stage.host p n := fun _ _ hown => hown.1
          have hsafe : (Warden.listening G.first).Safe (screen.stage.inWorld w) :=
            ⟨trivial, .imp (W := G.warden) rfl howns h.safe.table⟩
          have houtput : (Warden.listening G.first).Guards True (screen.stage.inWorld w)
              (screen.app.engine.output b screen.app.root s screen.app.rendered) _ :=
            output_guards Warden.listening_drops hdeaf.hooks (h.root ▸ h.safe.host.inside) fun r hr =>
              h.root ▸ .imp (W := G.warden) rfl howns (h.rooted r hr).own
          have hguards := houtput _ (.refl _) hsafe
          dsimp only
          cases hpass : screen.app.engine.output b screen.app.root s screen.app.rendered (screen.stage.inWorld w) with
          | ok r stage =>
              rw [hpass] at hguards
              exact hguards.1.host.2
          | error cause stage =>
              rw [hpass] at hguards
              cases cause with
              | trouble t => trivial
              | error e =>
                  have hdrops : Host.Drops screen.app.root _ stage.host
                    (clear screen.app.root (App.spared screen) stage.host) := .all _ _
                  exact hguards.2.1.host.2.trans (.of_same hdrops.bound hdrops.targets)

/-- An app keeps its engine. -/
theorem frame_engine (hframe : App.frame b view screen = .ok done screen') :
    screen'.app.engine = screen.app.engine := by
  rw [frame_eq] at hframe
  split at hframe
  · cases hframe
    rfl
  · split at hframe
    · cases hframe
    · split at hframe <;> cases hframe
      rfl

theorem failed_engine (hfailed : App.frame b view screen = .error (.error e) failed) :
    failed.app.engine = screen.app.engine := by
  rw [frame_eq] at hfailed
  split at hfailed
  · cases hfailed
  · split at hfailed
    · cases hfailed
    · split at hfailed <;> cases hfailed
      rfl

end Frames

variable (b) in
/-- A run of frames that succeed. In between the world may change, but nobody else touches the host. -/
inductive Streak (view : σ → Act ω Sentence) (start : Screen ω σ) : Screen ω σ → Prop
  | start : Streak view start start
  | schedule {screen : Screen ω σ} (hstreak : Streak view start screen) (snapshot : σ) :
      Streak view start { screen with app := screen.app.schedule snapshot }
  | frame {screen screen' : Screen ω σ} {done : Bool} (hstreak : Streak view start screen)
      (hframe : App.frame b view screen = .ok done screen') : Streak view start screen'
  | acted {screen : Screen ω σ} (hstreak : Streak view start screen) (w : ω) :
      Streak view start { screen with stage := screen.stage.inWorld w }

section Streaks

variable {engine : Engine} {root : NodeId} {stage : Stage ω} {screen screen' failed : Screen ω σ} {e : PassError}

theorem Streak.runs {start : Screen ω σ} (h : Streak b view start screen) : Runs b view start screen := by
  induction h with
  | start => exact .start
  | schedule _ snapshot ih => exact .schedule ih snapshot
  | frame _ hframe ih => exact .frame ih hframe
  | acted _ w ih => exact .outside ih (Nat.le_refl _) rfl (fun _ _ => rfl) rfl

theorem Streak.engine_eq {start : Screen ω σ} (h : Streak b view start screen) :
    screen.app.engine = start.app.engine := by
  induction h with
  | start => rfl
  | schedule _ _ ih | acted _ _ ih => exact ih
  | frame _ hframe ih => exact (frame_engine hframe).trans ih

theorem Streak.issued (hspares : b.Spares root) (hdeaf : b.Deaf) (hroot : root.index < stage.host.count)
    (hmade : ∀ n ∈ stage.host.children root, n.index < stage.host.count) (hissued : stage.host.Issued)
    (h : Streak b view ⟨App.new engine root, stage⟩ screen) : screen.stage.host.Issued := by
  induction h with
  | start => exact hissued
  | schedule _ _ ih | acted _ _ ih => exact ih
  | frame hstreak hframe ih =>
      have hrelistens := (hstreak.runs.settled hspares hroot hmade).relistens view hdeaf
      rw [hframe] at hrelistens
      exact hrelistens.issued ih

/-- What a frame does when nothing is rendered: it renders. -/
theorem frame_renders {snapshot : σ} (hrendered : screen.app.rendered = none)
    (hpending : screen.app.frames.pending = some snapshot) :
    App.frame b view screen = .ok true screen' ↔ ∃ s w r stage', view snapshot screen.stage.world = .ok s w ∧
      screen.app.engine.render b screen.app.root s (screen.stage.inWorld w) = .ok r stage' ∧
      screen' = ⟨{ screen.app with
        frames := screen.app.frames.take.2, rendered := some r, foreign := spared screen }, stage'⟩ := by
  rw [frame_eq, hpending]
  dsimp only
  cases hview : view snapshot screen.stage.world with
  | error t w => simp
  | ok s w =>
      have houtput : screen.app.engine.output b screen.app.root s screen.app.rendered =
          screen.app.engine.render b screen.app.root s := by rw [hrendered]; rfl
      dsimp only
      rw [houtput]
      cases hpass : screen.app.engine.render b screen.app.root s (screen.stage.inWorld w) with
      | ok r stage' =>
          constructor
          · intro h
            cases h
            exact ⟨s, w, r, stage', rfl, hpass, rfl⟩
          · rintro ⟨_, _, _, _, ⟨⟩, hrender, rfl⟩
            rw [hpass] at hrender
            cases hrender
            rfl
      | error cause stage' =>
          constructor
          · intro h
            cases cause <;> cases h
          · rintro ⟨_, _, _, _, ⟨⟩, hrender, -⟩
            rw [hpass] at hrender
            cases hrender

/-- What the rendering of a sentence adds to the listeners of a node that was there before: those of its words that are
placed on the node, each once. -/
theorem render_joins {s : Sentence} {r : Rendered} {σ₀ σ₁ : Stage ω} (hdeaf : b.Deaf)
    (hroot : root.index < σ₀.host.count) (hissued : σ₀.host.Issued) (hpass : engine.render b root s σ₀ = .ok r σ₁)
    {ls : List (ListenerId × String)} (hls : σ₁.host.bound root = σ₀.host.bound root ++ ls) (event : String) :
    (σ₁.host.calledBy ls event).Perm
      ((Outputs.words σ₁.instances [(root, r)]).filterMap (engine.calls root event)) := by
  obtain ⟨cs, posts, hcarries⟩ := (Retained.empty σ₀).render (ρ := .lasting engine) (fun _ => Option.some.inj) hpass
  have hmoves := hcarries.moves (fun hcall => (hdeaf hcall).1) (fun n hn => by simp_all [elementsOf]) fun _ _ => trivial
  have hstart : Joined root (σ₀.host.bound root) σ₀.host.listeners.size σ₀.host (tiesOf []) :=
    ⟨hroot, Nat.le_refl _, by simp [tiesOf], by simp [tiesOf], List.nodup_nil, by simp [tiesOf, boundTo]⟩
  have hjoined := hmoves.preserves
    (I := fun τ ps => Joined root (σ₀.host.bound root) σ₀.host.listeners.size τ.host (tiesOf ps))
    (fun hmove h => hmove.joined hdeaf (fun _ => by simp [Regime.judge_of_whole, Regime.lasting])
      (fun l hl => (hissued root l hl).2) h) hstart
  have hperm : ls.Perm (boundTo root (tiesOf posts)) := by
    have hbound := hjoined.bound
    rw [hls] at hbound
    exact (List.perm_append_left_iff _).mp hbound
  refine ((hperm.filter _).filterMap _).trans (.of_eq ?_)
  have hretained : Retained (.lasting engine) [(root, r)] σ₁ cs posts := hcarries.retained
  rw [hretained.words_eq]
  exact heard_tiesOf (fun post hpost => hretained.posted.suits post hpost engine rfl)
    (fun q id lexem hmem => (hjoined.listeners q id lexem hmem).2) root event

/-- After frames that have succeeded and one that has failed, the children of the root are those from before the first
frame, and the next frame does what the first frame of a new app does, on any host whose root shows what the failed
frame has left on the root: what stands under the root afterwards looks and sounds the same, and so does the root. An
event on the root calls what it called when the failed frame had ended, and then, each once, the handlers of the words
that the new output places on the root. -/
theorem frame_after_failure {snapshot : σ} (hspares : b.Spares root) (hdeaf : b.Deaf) (heven : b.Even)
    (hroot : root.index < stage.host.count) (hmade : ∀ n ∈ stage.host.children root, n.index < stage.host.count)
    (hissued : stage.host.Issued) (hstreak : Streak b view ⟨App.new engine root, stage⟩ screen)
    (hfailed : App.frame b view screen = .error (.error e) failed)
    (hframe : App.frame b view { failed with app := failed.app.schedule snapshot } = .ok true screen') :
    failed.app.rendered = none ∧ failed.stage.host.children root = stage.host.children root ∧
      ∃ (r : Rendered) (ns : List NodeId) (called : String → List Listener), screen'.app.rendered = some r ∧
        screen'.stage.host.children root = stage.host.children root ++ ns ∧
        (∀ event, screen'.stage.host.heard root event = failed.stage.host.heard root event ++ called event) ∧
        (∀ event, (called event).Perm
          ((Outputs.words screen'.stage.instances [(root, r)]).filterMap (engine.calls root event))) ∧
        ∀ host : Host, root.index < host.count → host.Issued → host.content root = failed.stage.host.content root →
          ∃ alone ns', App.frame b view ⟨(App.new engine root).schedule snapshot, { failed.stage with host }⟩ =
              .ok true alone ∧
            alone.stage.host.content root = screen'.stage.host.content root ∧
            alone.stage.host.children root = host.children root ++ ns' ∧
            (∀ depth, List.Forall₂ (screen'.stage.host.Matches alone.stage.host depth) ns ns') ∧
            ∀ event, alone.stage.host.heard root event = host.heard root event ++ called event := by
  have hsettled := hstreak.runs.settled hspares hroot hmade
  have hnext : Settled (reserve root stage) failed := by
    have hsettled := hsettled.frame view hspares
    rw [hfailed] at hsettled
    exact hsettled.1
  have hnone : failed.app.rendered = none := by
    have hsettled := hsettled.frame view hspares
    rw [hfailed] at hsettled
    exact hsettled.2.2
  have hchildren : failed.stage.host.children root = stage.host.children root := hnext.cleared hnone
  have hissued' : failed.stage.host.Issued := by
    have hrelistens := hsettled.relistens view hdeaf
    rw [hfailed] at hrelistens
    exact hrelistens.issued (hstreak.issued hspares hdeaf hroot hmade hissued)
  have hroot' : root.index < failed.stage.host.count := hnext.safe.host.inside
  have happ : failed.app.root = root := hnext.root
  have hengine : failed.app.engine = engine := (failed_engine hfailed).trans hstreak.engine_eq
  obtain ⟨s, w, r, stage', hview, hpass, rfl⟩ := (frame_renders (by exact hnone) rfl).mp hframe
  change failed.app.engine.render b failed.app.root s (failed.stage.inWorld w) = _ at hpass
  rw [happ, hengine] at hpass
  -- the failed stage is played again on every other host, and in particular on itself
  have hreplay : ∀ host : Host, root.index < host.count → host.content root = failed.stage.host.content root →
      ∃ (M : Mirror) (r' : Rendered) (stage₁ : Stage ω), M.host = failed.stage.host ∧ M.image = host ∧ M.root = root ∧
        engine.render b root s ⟨host, failed.stage.instances, w⟩ = .ok r' stage₁ ∧ M.Stages stage' stage₁ := by
    intro host hinside hcontent
    let M : Mirror := ⟨failed.stage.host, host, root, hroot', hinside⟩
    have hstages : M.Stages (failed.stage.inWorld w) ⟨host, failed.stage.instances, w⟩ := ⟨.start hcontent, rfl, rfl⟩
    obtain ⟨-, r', stage₁, hpass', hlast⟩ :=
      M.renderWithin_replays heven Engine.depthLimit engine hstages (.inl rfl) hpass
    rw [show M.node root = root from Mirror.node_root] at hpass'
    exact ⟨M, r', stage₁, rfl, rfl, rfl, hpass', hlast⟩
  obtain ⟨M, _, _, hhost, -, hM, -, hself⟩ := hreplay failed.stage.host hroot' rfl
  obtain ⟨-, ⟨ns, -, hns, -⟩, ls, hls, hbound, -⟩ := hself.host.copies root (.inl hM.symm)
  rw [← hM, Mirror.before_root, hM, hhost] at hns hbound
  rw [hhost] at hls
  refine ⟨hnone, hchildren, r, ns, stage'.host.calledBy ls, rfl, by rw [← hchildren]; exact hns, fun event => ?_,
    fun event => ?_, fun host hinside hgiven hcontent => ?_⟩
  · rw [Host.heard_eq, hbound, Host.calledBy_append]
    have hbefore := (hself.host.calledBy_before event).1 (failed.stage.host.bound root) (hhost.symm ▸ hissued' root)
    rw [hbefore, hhost]
    rfl
  · have hinside : root.index < (failed.stage.inWorld w).host.count := hroot'
    exact render_joins hdeaf hinside hissued' hpass hbound event
  · obtain ⟨M', r', stage₁, hhost', himage, hM', hpass', hlast⟩ := hreplay host hinside hcontent
    obtain ⟨hsame, ⟨ns₁, hns₁, hchildren₁, hchildren₁'⟩, ls₁, hls₁, hbound₁, hbound₁'⟩ :=
      hlast.host.copies root (.inl hM'.symm)
    rw [← hM', Mirror.before_root, hM'] at hchildren₁ hchildren₁' hbound₁ hbound₁'
    rw [← hM', Mirror.node_root, hM'] at hsame hchildren₁' hbound₁'
    rw [hhost', hns] at hchildren₁
    rw [hhost', hbound] at hbound₁
    obtain rfl := List.append_cancel_left hchildren₁
    obtain rfl := List.append_cancel_left hbound₁
    rw [himage] at hchildren₁' hbound₁'
    refine ⟨⟨{ (App.new engine root).schedule snapshot with
        frames := ((App.new engine root).schedule snapshot).frames.take.2, rendered := some r',
        foreign := spared ⟨(App.new engine root).schedule snapshot, { failed.stage with host }⟩ }, stage₁⟩,
      ns.map M'.node, (frame_renders rfl rfl).mpr ⟨s, w, r', stage₁, hview, hpass', rfl⟩, hsame, hchildren₁', ?_, ?_⟩
    · intro depth
      rw [List.forall₂_map_right_iff, List.forall₂_same]
      exact fun n hn => hlast.host.matches_copy depth (hns₁ n hn)
    · intro event
      rw [Host.heard_eq, hbound₁', Host.calledBy_append, hlast.host.calledBy hls₁]
      have hbefore := (hlast.host.calledBy_before event).2 (host.bound root) (himage.symm ▸ hgiven root)
      rw [hbefore, himage]
      rfl

end Streaks

/-- A view of numbers: an even one is a click and a text, and an odd one is only a text. -/
def clickable (n : Nat) : Act Unit Sentence :=
  pure (.plain (if n % 2 = 0 then [("on", [.str "click", .handler ⟨n⟩]), ("text", [.str "even"])]
    else [("text", [.str "odd"])]))

/-- Hooks that do nothing do the same everywhere. -/
theorem inert_even : Behaviour.inert.Even := by
  intro M hook n args h h₁ h' w w₁ hreflects _ hcall
  cases hcall
  exact ⟨Nat.le_refl _, h', rfl, hreflects⟩

theorem inert_deaf : Behaviour.inert.Deaf := by
  rintro h w h' w' (⟨⟨⟩⟩ | ⟨⟨⟩⟩ | ⟨⟨⟩⟩) <;> exact ⟨Nat.le_refl _, fun _ => rfl, rfl⟩

theorem bannered_issued : bannered.host.Issued := by
  intro n l hl
  have hnone : bannered.host.bound n = [] := by
    obtain ⟨_ | _ | i⟩ := n
    · rfl
    · rfl
    · exact Host.bound_of_count_le (Nat.le_add_left 2 i)
  rw [hnone] at hl
  cases hl

/-- Whether a frame succeeds or fails, as it should, and what it leaves is as it should be. -/
def ends (b : Behaviour ω) (view : σ → Act ω Sentence) (well : Bool) (screen : Screen ω σ)
    (p : Screen ω σ → Bool) : Bool :=
  match App.frame b view screen with
  | .ok true screen' => well && p screen'
  | .error (.error _) screen' => !well && p screen'
  | _ => false

theorem exists_of_ends {screen : Screen ω σ} {p : Screen ω σ → Bool} (h : ends b view true screen p = true) :
    ∃ screen', App.frame b view screen = .ok true screen' ∧ p screen' = true := by
  unfold ends at h
  split at h
  · next screen' hframe => exact ⟨screen', hframe, by simpa using h⟩
  · simp at h
  · cases h

theorem exists_of_ends_badly {screen : Screen ω σ} {p : Screen ω σ → Bool} (h : ends b view false screen p = true) :
    ∃ e screen', App.frame b view screen = .error (.error e) screen' ∧ p screen' = true := by
  unfold ends at h
  split at h
  · simp at h
  · next e screen' hframe => exact ⟨e, screen', hframe, by simpa using h⟩
  · cases h

/-- A click is rendered, another view fails, and the next one is rendered after the banner, with a click of its own. -/
theorem frame_after_failure_clickable : ∃ screen failed screen' e,
    Streak Behaviour.inert clickable ⟨App.new .plain Host.root, bannered⟩ screen ∧
    App.frame Behaviour.inert clickable screen = .error (.error e) failed ∧
    App.frame Behaviour.inert clickable { failed with app := failed.app.schedule 2 } = .ok true screen' ∧
    failed.stage.host.children Host.root = [⟨1⟩] ∧
    ∃ alone ns ns', App.frame Behaviour.inert clickable
        ⟨(App.new .plain Host.root).schedule 2, { failed.stage with host := bannered.host }⟩ = .ok true alone ∧
      screen'.stage.host.children Host.root = ⟨1⟩ :: ns ∧ alone.stage.host.children Host.root = ⟨1⟩ :: ns' ∧
      ∀ depth, List.Forall₂ (screen'.stage.host.Matches alone.stage.host depth) ns ns' := by
  have hends : ends Behaviour.inert clickable true ⟨(App.new .plain Host.root).schedule 0, bannered⟩
    (fun first => ends Behaviour.inert clickable false { first with app := first.app.schedule 1 } fun failed =>
        ends Behaviour.inert clickable true { failed with app := failed.app.schedule 2 } fun _ =>
          decide (bannered.host.content Host.root = failed.stage.host.content Host.root)) = true := by decide +kernel
  obtain ⟨first, hfirst, hends⟩ := exists_of_ends hends
  obtain ⟨e, failed, hfailed, hends⟩ := exists_of_ends_badly hends
  obtain ⟨screen', hframe, hcontent⟩ := exists_of_ends hends
  have hstreak : Streak Behaviour.inert clickable ⟨App.new .plain Host.root, bannered⟩
      { first with app := first.app.schedule 1 } := .schedule (.frame (.schedule .start 0) hfirst) 1
  obtain ⟨-, hchildren, r, ns, called, -, hns, -, -, halone⟩ := frame_after_failure (inert_spares Host.root) inert_deaf
    inert_even (by decide) (by decide) bannered_issued hstreak hfailed hframe
  obtain ⟨alone, ns', hrun, -, hns', hmatches, -⟩ :=
    halone bannered.host (by decide) bannered_issued (of_decide_eq_true hcontent)
  exact ⟨_, failed, screen', e, hstreak, hfailed, hframe, hchildren, alone, ns, ns', hrun, hns, hns', hmatches⟩

/-- The click of a frame before the failure is still there: it is called beside the new one, which a new app calls
alone. -/
theorem click_left_behind : ∃ screen failed screen' alone e,
    Streak Behaviour.inert clickable ⟨App.new .plain Host.root, ⟨.new, #[], ()⟩⟩ screen ∧
    App.frame Behaviour.inert clickable screen = .error (.error e) failed ∧
    App.frame Behaviour.inert clickable { failed with app := failed.app.schedule 2 } = .ok true screen' ∧
    App.frame Behaviour.inert clickable ⟨(App.new .plain Host.root).schedule 2, { failed.stage with host := .new }⟩ =
      .ok true alone ∧
    (screen'.stage.host.heard Host.root "click").map (·.handler) = [⟨0⟩, ⟨2⟩] ∧
    (alone.stage.host.heard Host.root "click").map (·.handler) = [⟨2⟩] := by
  have hends : ends Behaviour.inert clickable true ⟨(App.new .plain Host.root).schedule 0, ⟨.new, #[], ()⟩⟩
    (fun first => ends Behaviour.inert clickable false { first with app := first.app.schedule 1 } fun failed =>
        ends Behaviour.inert clickable true { failed with app := failed.app.schedule 2 } fun screen' =>
          ends Behaviour.inert clickable true
              ⟨(App.new .plain Host.root).schedule 2, { failed.stage with host := .new }⟩ fun alone =>
            decide ((screen'.stage.host.heard Host.root "click").map (·.handler) = [⟨0⟩, ⟨2⟩] ∧
              (alone.stage.host.heard Host.root "click").map (·.handler) = [⟨2⟩])) = true := by decide +kernel
  obtain ⟨first, hfirst, hends⟩ := exists_of_ends hends
  obtain ⟨e, failed, hfailed, hends⟩ := exists_of_ends_badly hends
  obtain ⟨screen', hframe, hends⟩ := exists_of_ends hends
  obtain ⟨alone, hrun, hheard⟩ := exists_of_ends hends
  exact ⟨_, failed, screen', alone, e, .schedule (.frame (.schedule .start 0) hfirst) 1, hfailed, hframe, hrun,
    of_decide_eq_true hheard⟩

end App

end Parlance
