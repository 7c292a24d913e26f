import Parlance.Proofs.Lexicon.Acts
import Parlance.Schedule.Frames
import Parlance.Schedule.Store

/-! An app that follows a store, among listeners that may update the store themselves. Every update starts a
round of notices of its own, inside the round in which it was made, and each round hands out the snapshot that
was current when it began. So what the app is left with comes from the outermost round as long as nothing
behind the app updates the store, and it is the current snapshot as long as nothing before it does. -/

namespace Parlance

/-- What a listener does when it is told of a snapshot. -/
inductive Reaction (σ τ : Type) where
  | done
  /-- Goes on according to what the listeners remember and to the snapshot of the store. -/
  | look (next : τ → Snapshot σ → Reaction σ τ)
  | remember (f : τ → τ) (next : Reaction σ τ)
  | update (f : σ → σ) (next : Reaction σ τ)

inductive Listening (σ τ : Type) where
  /-- Schedules the snapshot for the next frame of the app. -/
  | app
  | other (react : Snapshot σ → Reaction σ τ)

/-- A store with its listeners, the frames of the app that follows it, and what the other listeners remember. -/
structure Following (σ τ : Type) where
  store : Store σ (Listening σ τ)
  frames : Frames (Snapshot σ)
  memory : τ
  /-- The identity of the next snapshot. -/
  supply : Nat

variable {σ τ : Type}

namespace Snapshot

/-- A new snapshot, with a value made from that of the old one. -/
def renew (f : σ → σ) (snapshot : Snapshot σ) : Act (Following σ τ) (Snapshot σ) := fun w =>
  .ok ⟨⟨w.supply⟩, f snapshot.value⟩ { w with supply := w.supply + 1 }

end Snapshot

namespace Reaction

/-- Carries a reaction out, given how the store is updated. -/
def run (revise : (σ → σ) → Act (Following σ τ) Unit) : Reaction σ τ → Act (Following σ τ) Unit
  | done => pure ()
  | look next => do
      let w ← get
      (next w.memory w.store.current).run revise
  | remember f next => do
      modify fun w => { w with memory := f w.memory }
      next.run revise
  | update f next => do
      revise f
      next.run revise

/-- Whether a reaction leaves the store alone. -/
def Quiet : Reaction σ τ → Prop
  | done => True
  | look next => ∀ memory snapshot, (next memory snapshot).Quiet
  | remember _ next => next.Quiet
  | update _ _ => False

end Reaction

def Listening.Quiet : Listening σ τ → Prop
  | app => True
  | other react => ∀ snapshot, (react snapshot).Quiet

/-- What happens to a listener that is told of a snapshot. -/
def Listening.hear (revise : (σ → σ) → Act (Following σ τ) Unit) :
    Listening σ τ → Snapshot σ → Act (Following σ τ) Unit
  | app, snapshot => modify fun w => { w with frames := (w.frames.schedule snapshot).2 }
  | other react, snapshot => (react snapshot).run revise

namespace Following

/-- The store among its listeners, for rounds of notices that are nested no deeper than so many levels. -/
def siteWithin : Nat → Site (Following σ τ) σ (Listening σ τ)
  | 0 => ⟨store, fun store w => { w with store }, fun _ _ => throw .exhausted⟩
  | depth + 1 => ⟨store, fun store w => { w with store },
      Listening.hear fun f => Store.update (siteWithin depth) (Snapshot.renew f)⟩

/-- An update that is made from outside. -/
def update (depth : Nat) (f : σ → σ) : Act (Following σ τ) Unit :=
  Store.update (siteWithin depth) (Snapshot.renew f)

variable {depth : Nat} {w w' : Following σ τ} {before after : List (Listening σ τ)} {snapshot : Snapshot σ}

/-- The same store with another snapshot. -/
def showing (w : Following σ τ) (snapshot : Snapshot σ) : Following σ τ :=
  { w with store := { w.store with current := snapshot }, supply := w.supply + 1 }

/-- An update is a round of notices about a new snapshot. -/
theorem update_eq_ok {f : σ → σ} (h : update depth f w = .ok () w') :
    (w.store.listeners.forM fun l => (siteWithin depth).notify l ⟨⟨w.supply⟩, f w.store.current.value⟩)
      (w.showing ⟨⟨w.supply⟩, f w.store.current.value⟩) = .ok () w' := by
  cases depth <;> exact h

/-- The app is told of a snapshot, and nobody else is. -/
theorem notify_app (h : (siteWithin (depth + 1)).notify .app snapshot w = .ok () w') :
    w' = { w with frames := (w.frames.schedule snapshot).2 } := by
  cases h
  rfl

/-- A quiet reaction only changes what the listeners remember. -/
theorem run_quiet {revise : (σ → σ) → Act (Following σ τ) Unit} {reaction : Reaction σ τ} (hquiet : reaction.Quiet)
    (h : reaction.run revise w = .ok () w') : w'.store = w.store ∧ w'.frames = w.frames := by
  induction reaction generalizing w with
  | done =>
      cases h
      exact ⟨rfl, rfl⟩
  | look next ih => exact ih w.memory w.store.current (hquiet _ _) h
  | remember f next ih => exact ih (w := { w with memory := f w.memory }) hquiet h
  | update f next => exact hquiet.elim

/-- What updates keep, reactions keep that only update the store and remember things. -/
theorem run_keeps {revise : (σ → σ) → Act (Following σ τ) Unit} {I : Following σ τ → Prop}
    (hrevise : ∀ f w w', revise f w = .ok () w' → I w → I w')
    (hmemory : ∀ (f : τ → τ) w, I w → I { w with memory := f w.memory }) {reaction : Reaction σ τ}
    (h : reaction.run revise w = .ok () w') (hI : I w) : I w' := by
  induction reaction generalizing w with
  | done =>
      cases h
      exact hI
  | look next ih => exact ih w.memory w.store.current h hI
  | remember f next ih => exact ih h (hmemory f w hI)
  | update f next ih =>
      obtain ⟨⟨⟩, w₁, hupdate, hrest⟩ := Act.bind_eq_ok.mp h
      exact ih hrest (hrevise f w w₁ hupdate hI)

/-- Quiet listeners leave the store alone. -/
theorem notices_quiet {listeners : List (Listening σ τ)} (hquiet : ∀ l ∈ listeners, l.Quiet)
    (h : listeners.forM (fun l => (siteWithin (depth + 1)).notify l snapshot) w = .ok () w') :
    w'.store = w.store ∧ (w.frames.pending = some snapshot → w'.frames.pending = some snapshot) := by
  refine Act.forM_keeps (I := fun v => v.store = w.store ∧
    (w.frames.pending = some snapshot → v.frames.pending = some snapshot)) ?_ h ⟨rfl, id⟩
  rintro (_ | react) hl v v' hhear ⟨hstore, hpending⟩
  · rw [notify_app hhear]
    exact ⟨hstore, fun _ => rfl⟩
  · obtain ⟨hsame, hframes⟩ := run_quiet (hquiet _ hl snapshot) hhear
    exact ⟨hsame.trans hstore, fun h => hframes ▸ hpending h⟩

/-- Within a round, the listeners before the app are told first, then the app, then those behind it. -/
theorem notices_split (h : (before ++ .app :: after).forM (fun l => (siteWithin (depth + 1)).notify l snapshot) w =
      .ok () w') :
    ∃ w₁, before.forM (fun l => (siteWithin (depth + 1)).notify l snapshot) w = .ok () w₁ ∧
      after.forM (fun l => (siteWithin (depth + 1)).notify l snapshot)
        { w₁ with frames := (w₁.frames.schedule snapshot).2 } = .ok () w' := by
  obtain ⟨w₁, hbefore, hrest⟩ := Act.forM_append_eq_ok.mp h
  obtain ⟨⟨⟩, w₂, happ, hafter⟩ := Act.bind_eq_ok.mp hrest
  rw [notify_app happ] at hafter
  exact ⟨w₁, hbefore, hafter⟩

/-- A round in which there is somebody to tell needs a level of its own. -/
theorem exists_depth {f : σ → σ} (hlisteners : w.store.listeners = before ++ .app :: after)
    (h : update depth f w = .ok () w') : ∃ depth', depth = depth' + 1 := by
  cases depth with
  | zero =>
      have hround := update_eq_ok h
      rw [hlisteners] at hround
      cases before <;> cases hround
  | succ depth => exact ⟨depth, rfl⟩

/-- The app has been handed the current snapshot, and stands where it stood among the listeners. -/
def UpToDate (listeners : List (Listening σ τ)) (w : Following σ τ) : Prop :=
  w.store.listeners = listeners ∧ w.frames.pending = some w.store.current

/-- An update brings the app up to date, whatever the listeners behind it do: the rounds that they start end
in the same way. -/
theorem update_upToDate (hquiet : ∀ l ∈ before, l.Quiet) (honce : .app ∉ after) (f : σ → σ) :
    ∀ {w w' : Following σ τ}, w.store.listeners = before ++ .app :: after → update depth f w = .ok () w' →
      UpToDate (before ++ .app :: after) w' := by
  induction depth generalizing f with
  | zero =>
      intro w w' hlisteners hupdate
      obtain ⟨depth', hdepth⟩ := exists_depth hlisteners hupdate
      cases hdepth
  | succ depth ih =>
      intro w w' hlisteners hupdate
      have hround := update_eq_ok hupdate
      rw [hlisteners] at hround
      obtain ⟨w₁, hbefore, hafter⟩ := notices_split hround
      obtain ⟨hstore, -⟩ := notices_quiet hquiet hbefore
      refine Act.forM_keeps ?_ hafter ⟨?_, ?_⟩
      · rintro (_ | react) hl v v' hhear hup
        · exact absurd hl honce
        · exact run_keeps (fun g u u' hrevise hu => ih g hu.1 hrevise) (fun _ _ hu => hu) hhear hup
      · exact (congrArg Store.listeners hstore).trans hlisteners
      · exact congrArg some (congrArg Store.current hstore).symm

end Following

/-- As long as no listener before the app updates the store, every update from outside leaves the app with the
current snapshot. The listeners behind the app may update the store whenever they like. -/
theorem follow_latest (depth : Nat) (before after : List (Listening σ τ)) (hquiet : ∀ l ∈ before, l.Quiet)
    (honce : .app ∉ after) (f : σ → σ) (w w' : Following σ τ)
    (hlisteners : w.store.listeners = before ++ .app :: after) (hupdate : Following.update depth f w = .ok () w') :
    w'.frames.pending = some w'.store.current :=
  (Following.update_upToDate hquiet honce f hlisteners hupdate).2

/-- As long as no listener behind the app updates the store, the app is left with the snapshot of the update from
outside, even if the listeners before it have put newer ones in its place. -/
theorem follow_outermost (depth : Nat) (before after : List (Listening σ τ)) (hquiet : ∀ l ∈ after, l.Quiet)
    (f : σ → σ) (w w' : Following σ τ) (hlisteners : w.store.listeners = before ++ .app :: after)
    (hupdate : Following.update depth f w = .ok () w') :
    w'.frames.pending = some ⟨⟨w.supply⟩, f w.store.current.value⟩ := by
  obtain ⟨depth, rfl⟩ := Following.exists_depth hlisteners hupdate
  have hround := Following.update_eq_ok hupdate
  rw [hlisteners] at hround
  obtain ⟨w₁, -, hafter⟩ := Following.notices_split hround
  exact (Following.notices_quiet hquiet hafter).2 rfl

/-- A listener that raises the value by one, once it has reached one. -/
def Listening.raising : Listening Nat Unit :=
  .other fun snapshot => if snapshot.value = 1 then .update (· + 1) .done else .done

/-- A store with value zero, and its listeners. -/
def Following.counting (listeners : List (Listening Nat Unit)) : Following Nat Unit :=
  ⟨⟨⟨⟨0⟩, 0⟩, listeners⟩, .new, (), 1⟩

/-- The listener that raises the value stands behind the app. -/
theorem follow_latest_raising : ∃ w', Following.update 2 (· + 1) (.counting [.app, .raising]) = .ok () w' ∧
    w'.frames.pending = some w'.store.current ∧ w'.store.current = ⟨⟨2⟩, 2⟩ := by
  have hrun : Following.update 2 (· + 1) (.counting [.app, .raising]) =
      .ok () ⟨⟨⟨⟨2⟩, 2⟩, [.app, .raising]⟩, ⟨some ⟨⟨2⟩, 2⟩, 1⟩, (), 3⟩ := rfl
  exact ⟨_, hrun, follow_latest 2 [] [.raising] (by simp) (by simp [Listening.raising]) (· + 1) _ _ rfl hrun, rfl⟩

/-- When it stands before the app, the app is left with the snapshot that it has replaced. -/
theorem follow_stale : ∃ w', Following.update 2 (· + 1) (.counting [.raising, .app]) = .ok () w' ∧
    w'.frames.pending = some ⟨⟨1⟩, 1⟩ ∧ w'.store.current = ⟨⟨2⟩, 2⟩ :=
  ⟨⟨⟨⟨⟨2⟩, 2⟩, [.raising, .app]⟩, ⟨some ⟨⟨1⟩, 1⟩, 1⟩, (), 3⟩, rfl, rfl, rfl⟩

end Parlance
