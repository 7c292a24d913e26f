import Parlance.Schedule.Frames

/-! Scheduling texts for frames, step by step. -/

namespace Parlance

inductive FramesStep where
  | schedule (value : String)
  | take

/-- What a step gives back, and the frames after it. -/
structure FramesReport where
  returned : Option String
  pending : Bool
  superseded : Nat
deriving DecidableEq

namespace Frames

def perform (f : Frames String) : FramesStep → Option String × Frames String
  | .schedule value => f.schedule value
  | .take => f.take

def run (f : Frames String) : List FramesStep → List FramesReport
  | [] => []
  | step :: steps =>
      let (returned, f) := f.perform step
      ⟨returned, f.isPending, f.superseded⟩ :: f.run steps

end Frames

end Parlance
