import Parlance.Proofs.Schedule.Rooting

/-! Snapshots are conserved. The scheduler of an app may be shared: others schedule and take snapshots as well as the
app, each frame of which takes one, and the end of which takes the last. Every snapshot that is scheduled is taken out
sooner or later, or it is given back to whoever schedules the next one, or it is still pending; and what is taken out is
always the latest. -/

namespace Parlance

namespace Frames

variable {σ : Type}

/-- A call on a scheduler, with what it gave back. -/
inductive Receipt (σ : Type) where
  | scheduled (snapshot : σ) (replaced : Option σ)
  | taken (snapshot : Option σ)

namespace Receipt

def scheduled? : Receipt σ → Option σ
  | scheduled snapshot _ => some snapshot
  | taken _ => none

def replaced? : Receipt σ → Option σ
  | scheduled _ replaced => replaced
  | taken _ => none

def taken? : Receipt σ → Option σ
  | scheduled _ _ => none
  | taken snapshot => snapshot

end Receipt

/-- The snapshots that were scheduled, in order. -/
def scheduledIn (receipts : List (Receipt σ)) : List σ := receipts.filterMap Receipt.scheduled?

/-- The snapshots that were given back to whoever scheduled the next one. -/
def replacedIn (receipts : List (Receipt σ)) : List σ := receipts.filterMap Receipt.replaced?

/-- The snapshots that were taken out, in order. -/
def takenIn (receipts : List (Receipt σ)) : List σ := receipts.filterMap Receipt.taken?

/-- What is pending after some calls: the last snapshot, if nobody has asked for it since. -/
def pendingAfter (receipts : List (Receipt σ)) : Option σ := receipts.getLast?.bind Receipt.scheduled?

/-- Whether a call gave back what was pending after the calls before it. -/
def Receipt.Fits (before : List (Receipt σ)) : Receipt σ → Prop
  | scheduled _ replaced => replaced = pendingAfter before
  | taken snapshot => snapshot = pendingAfter before

variable {receipts before after : List (Receipt σ)} {receipt : Receipt σ} {snapshot : σ} {f : Frames σ}

@[simp] theorem pendingAfter_concat : pendingAfter (receipts ++ [receipt]) = receipt.scheduled? := by
  simp [pendingAfter]

@[simp] theorem scheduledIn_concat :
    scheduledIn (receipts ++ [receipt]) = scheduledIn receipts ++ receipt.scheduled?.toList := by
  cases h : receipt.scheduled? <;> simp [scheduledIn, h]

@[simp] theorem replacedIn_concat :
    replacedIn (receipts ++ [receipt]) = replacedIn receipts ++ receipt.replaced?.toList := by
  cases h : receipt.replaced? <;> simp [replacedIn, h]

@[simp] theorem takenIn_concat : takenIn (receipts ++ [receipt]) = takenIn receipts ++ receipt.taken?.toList := by
  cases h : receipt.taken? <;> simp [takenIn, h]

/-- What is pending is the last snapshot that was scheduled. -/
theorem getLast?_scheduledIn (h : pendingAfter receipts = some snapshot) :
    (scheduledIn receipts).getLast? = some snapshot := by
  obtain ⟨last, hlast, hsnapshot⟩ := Option.bind_eq_some_iff.mp h
  obtain ⟨before, rfl⟩ := List.getLast?_eq_some_iff.mp hlast
  simp [scheduledIn, hsnapshot]

/-- The books of a scheduler are in order: they account for every snapshot and tell what is pending. -/
structure Conserved (receipts : List (Receipt σ)) (f : Frames σ) : Prop where
  pending : f.pending = pendingAfter receipts
  superseded : f.superseded = (replacedIn receipts).length
  accounted : (scheduledIn receipts).Perm (takenIn receipts ++ replacedIn receipts ++ f.pending.toList)
  ordered : (takenIn receipts ++ f.pending.toList).Sublist (scheduledIn receipts)
  fits : ∀ before receipt after, receipts = before ++ receipt :: after → receipt.Fits before

/-- What holds of every call and those before it goes on to do so with one more call. -/
theorem fits_concat (h : ∀ before receipt after, receipts = before ++ receipt :: after → receipt.Fits before)
    (hreceipt : receipt.Fits receipts) :
    ∀ before receipt' after, receipts ++ [receipt] = before ++ receipt' :: after → receipt'.Fits before := by
  intro before receipt' after heq
  rcases List.eq_nil_or_concat after with rfl | ⟨after, last, rfl⟩
  · obtain ⟨rfl, rfl⟩ := List.append_singleton_inj.mp heq
    exact hreceipt
  · rw [List.concat_eq_append] at heq
    have hinit := congrArg List.dropLast heq
    rw [List.dropLast_concat, ← List.cons_append, ← List.append_assoc, List.dropLast_concat] at hinit
    exact h before receipt' after hinit

namespace Conserved

theorem new : Conserved (σ := σ) [] .new :=
  ⟨rfl, rfl, .nil, .slnil, fun before receipt after heq => by simp at heq⟩

/-- Scheduling gives back what was pending. -/
theorem schedule (h : Conserved receipts f) (snapshot : σ) :
    Conserved (receipts ++ [.scheduled snapshot (f.schedule snapshot).1]) (f.schedule snapshot).2 where
  pending := by simp [Frames.schedule, Receipt.scheduled?]
  superseded := by
    rw [replacedIn_concat, List.length_append, ← h.superseded]
    cases hpending : f.pending <;> simp [Frames.schedule, Frames.isPending, Receipt.replaced?, hpending]
  accounted := by
    rw [scheduledIn_concat, takenIn_concat, replacedIn_concat]
    simpa [Frames.schedule, Receipt.scheduled?, Receipt.taken?, Receipt.replaced?] using
      h.accounted.append_right [snapshot]
  ordered := by
    rw [scheduledIn_concat, takenIn_concat]
    have hbefore : (takenIn receipts).Sublist (scheduledIn receipts) := (List.sublist_append_left _ _).trans h.ordered
    simpa [Frames.schedule, Receipt.scheduled?, Receipt.taken?] using hbefore.append_right [snapshot]
  fits := fits_concat h.fits h.pending

/-- Taking gives back what was pending and leaves nothing. -/
theorem take (h : Conserved receipts f) : Conserved (receipts ++ [.taken f.take.1]) f.take.2 where
  pending := by simp [Frames.take, Receipt.scheduled?]
  superseded := by simp [Frames.take, Receipt.replaced?, h.superseded]
  accounted := by
    rw [scheduledIn_concat, takenIn_concat, replacedIn_concat]
    have hswap : (takenIn receipts ++ replacedIn receipts ++ f.pending.toList).Perm
        (takenIn receipts ++ f.pending.toList ++ replacedIn receipts) := by
      rw [List.append_assoc, List.append_assoc]
      exact List.perm_append_comm.append_left _
    simpa [Frames.take, Receipt.scheduled?, Receipt.taken?, Receipt.replaced?] using h.accounted.trans hswap
  ordered := by
    rw [scheduledIn_concat, takenIn_concat]
    simpa [Frames.take, Receipt.scheduled?, Receipt.taken?] using h.ordered
  fits := fits_concat h.fits h.pending

end Conserved

end Frames

open Frames in
/-- What the parties do that share the scheduler of an app, starting from a screen, and the calls on the scheduler that
come of it. A frame takes the snapshot that it shows, and the end of an app takes what is pending. What these run may
call the scheduler as well, but only after that; such calls come next. The stage may change at any time. -/
inductive App.Traffic {ω σ : Type} (start : Screen ω σ) : List (Receipt σ) → Screen ω σ → Prop
  | start : App.Traffic start [] start
  | schedule {receipts : List (Receipt σ)} {screen : Screen ω σ} (h : App.Traffic start receipts screen)
      (snapshot : σ) : App.Traffic start (receipts ++ [.scheduled snapshot (screen.app.frames.schedule snapshot).1])
        { screen with app := screen.app.schedule snapshot }
  | take {receipts : List (Receipt σ)} {screen : Screen ω σ} (h : App.Traffic start receipts screen) :
      App.Traffic start (receipts ++ [.taken screen.app.frames.take.1])
        { screen with app := { screen.app with frames := screen.app.frames.take.2 } }
  | frame {receipts : List (Receipt σ)} {screen screen' : Screen ω σ} (h : App.Traffic start receipts screen)
      (b : Behaviour ω) (view : σ → Act ω Sentence)
      (hframe : (∃ done, App.frame b view screen = .ok done screen') ∨
        ∃ e, App.frame b view screen = .error e screen') :
      App.Traffic start (receipts ++ [.taken screen.app.frames.take.1]) screen'
  | unmount {receipts : List (Receipt σ)} {screen screen' : Screen ω σ} (h : App.Traffic start receipts screen)
      (b : Behaviour ω)
      (hunmount : App.unmount b screen = .ok () screen' ∨ ∃ e, App.unmount b screen = .error e screen') :
      App.Traffic start (receipts ++ [.taken screen.app.frames.take.1]) screen'
  | outside {receipts : List (Receipt σ)} {screen : Screen ω σ} (h : App.Traffic start receipts screen)
      (stage : Stage ω) : App.Traffic start receipts { screen with stage }

namespace App

open Frames

variable {ω σ : Type} {b : Behaviour ω} {view : σ → Act ω Sentence} {screen screen' start : Screen ω σ}
variable {receipts : List (Receipt σ)}

/-- However a frame ends, it has taken what was pending, and done nothing else to the scheduler. -/
theorem frame_takes (h : (∃ done, App.frame b view screen = .ok done screen') ∨
    ∃ e, App.frame b view screen = .error e screen') : screen'.app.frames = screen.app.frames.take.2 := by
  rw [frame_eq] at h
  split at h
  · obtain ⟨done, ⟨⟩⟩ | ⟨e, ⟨⟩⟩ := h
    rfl
  split at h
  · obtain ⟨done, ⟨⟩⟩ | ⟨e, ⟨⟩⟩ := h
    rfl
  split at h
  all_goals
    obtain ⟨done, ⟨⟩⟩ | ⟨e, ⟨⟩⟩ := h
    rfl

/-- A frame asks a view about nothing but the snapshot that it takes. -/
theorem frame_shows {view' : σ → Act ω Sentence}
    (h : ∀ snapshot ∈ screen.app.frames.take.1, view snapshot = view' snapshot) :
    App.frame b view screen = App.frame b view' screen := by
  rw [frame_eq, frame_eq]
  cases hpending : screen.app.frames.pending with
  | none => rfl
  | some snapshot =>
      dsimp only
      rw [h snapshot hpending]

/-- However unmounting ends, it has taken what was pending. -/
theorem unmount_takes (h : App.unmount b screen = .ok () screen' ∨ ∃ e, App.unmount b screen = .error e screen') :
    screen'.app.frames = screen.app.frames.take.2 := by
  rw [unmount_eq] at h
  split at h
  · obtain ⟨⟨⟩⟩ | ⟨e, ⟨⟩⟩ := h
    rfl
  split at h
  all_goals
    obtain ⟨⟨⟩⟩ | ⟨e, ⟨⟩⟩ := h
    rfl

/-- The books of a scheduler that starts empty are in order at any time. -/
theorem Traffic.conserved (hstart : start.app.frames = .new) (h : Traffic start receipts screen) :
    Conserved receipts screen.app.frames := by
  induction h with
  | start => exact hstart ▸ .new
  | schedule _ snapshot ih => exact ih.schedule snapshot
  | take _ ih => exact ih.take
  | frame _ b view hframe ih => exact frame_takes hframe ▸ ih.take
  | unmount _ b hunmount ih => exact unmount_takes hunmount ▸ ih.take
  | outside _ _ ih => exact ih

/-- Snapshots are conserved: all that were scheduled have been taken out, have been superseded, or are pending. They are
taken out in the order in which they were scheduled, each as the last one so far; and scheduling gives back what was
pending, which is what is superseded. -/
theorem snapshots_conserved (hstart : start.app.frames = .new) (h : Traffic start receipts screen) :
    (scheduledIn receipts).length = (takenIn receipts).length + screen.app.frames.superseded +
        (if screen.app.frames.isPending then 1 else 0) ∧
      (scheduledIn receipts).Perm (takenIn receipts ++ replacedIn receipts ++ screen.app.frames.pending.toList) ∧
      (takenIn receipts).Sublist (scheduledIn receipts) ∧
      (∀ before snapshot after, receipts = before ++ .taken (some snapshot) :: after →
        (scheduledIn before).getLast? = some snapshot) ∧
      screen.app.frames.superseded = (replacedIn receipts).length ∧
      ∀ before snapshot replaced after, receipts = before ++ .scheduled snapshot replaced :: after →
        replaced = pendingAfter before := by
  have hconserved := h.conserved hstart
  refine ⟨?_, hconserved.accounted, (List.sublist_append_left _ _).trans hconserved.ordered,
    fun before snapshot after heq => ?_, hconserved.superseded,
    fun before snapshot replaced after heq => hconserved.fits before _ after heq⟩
  · rw [hconserved.accounted.length_eq, List.length_append, List.length_append, hconserved.superseded]
    cases hpending : screen.app.frames.pending <;> simp [Frames.isPending, hpending]
  · exact getLast?_scheduledIn (hconserved.fits before _ after heq).symm

/-- Of five numbers the first is shown by a frame, the second is superseded by the third, this one is taken by a frame
that fails, the fourth is taken by somebody else, and the last is pending. -/
theorem snapshots_conserved_parity : ∃ screen : Screen Unit Nat,
    Traffic ⟨App.new .plain Host.root, bannered⟩ [.scheduled 0 none, .taken (some 0), .scheduled 1 none,
      .scheduled 3 (some 1), .taken (some 3), .scheduled 6 none, .taken (some 6), .scheduled 8 none] screen ∧
    screen.app.frames.pending = some 8 ∧ 5 = 3 + screen.app.frames.superseded + 1 ∧
    [0, 1, 3, 6, 8].Perm ([0, 3, 6] ++ [1] ++ [8]) ∧ [0, 3, 6].Sublist [0, 1, 3, 6, 8] := by
  have hframes : ∃ screen, App.frame Behaviour.inert parity
      ⟨(App.new .plain Host.root).schedule 0, bannered⟩ = .ok true screen ∧ screen.app.frames = ⟨none, 0⟩ ∧
      ∃ e screen', App.frame Behaviour.inert parity
        { screen with app := (screen.app.schedule 1).schedule 3 } = .error e screen' ∧
        screen'.app.frames = ⟨none, 1⟩ := ⟨_, rfl, rfl, _, _, rfl, rfl⟩
  obtain ⟨screen₁, hshown, htaken, e, screen₂, hfailed, hleft⟩ := hframes
  have hzero : Traffic (⟨App.new .plain Host.root, bannered⟩ : Screen Unit Nat) _ _ := Traffic.start.schedule 0
  have hfirst := (hzero.frame Behaviour.inert parity (.inl ⟨true, hshown⟩)).schedule 1
  have hsecond := (hfirst.schedule 3).frame Behaviour.inert parity (.inr ⟨e, hfailed⟩)
  have hlast := ((hsecond.schedule 6).take).schedule 8
  simp only [App.schedule, App.new, Frames.new, Frames.schedule, Frames.take, htaken, hleft] at hlast
  obtain ⟨hcount, haccounted, hordered, -⟩ := snapshots_conserved rfl hlast
  exact ⟨_, hlast, rfl, hcount, haccounted, hordered⟩

end App

end Parlance
