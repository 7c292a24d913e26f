/-! Frames: at most one snapshot is pending. A newer one takes its place, and it is counted how often that
happened. -/

namespace Parlance

structure Frames (σ : Type) where
  pending : Option σ
  /-- How many snapshots were replaced before their frame came. -/
  superseded : Nat

namespace Frames

variable {σ : Type}

def new : Frames σ := ⟨none, 0⟩

def isPending (f : Frames σ) : Bool := f.pending.isSome

/-- Schedules a snapshot, and gives back the one that it replaces. -/
def schedule (f : Frames σ) (snapshot : σ) : Option σ × Frames σ :=
  (f.pending, ⟨some snapshot, f.superseded + if f.isPending then 1 else 0⟩)

/-- Takes the pending snapshot out. -/
def take (f : Frames σ) : Option σ × Frames σ := (f.pending, { f with pending := none })

end Frames

end Parlance
