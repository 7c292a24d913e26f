import Parlance.Script.Behaviour

/-! A store of arguments, step by step, with listeners that leave lines in the journal. Snapshots can be kept
to see later whether they are still the current one. -/

namespace Parlance

inductive StoreStep where
  /-- Replaces the snapshot by the value of an expression over it. -/
  | update (value : Expr)
  | emit
  | watch (label : String)
  /-- Keeps the current snapshot. -/
  | hold

structure StoreReport where
  now : String
  /-- The snapshots that were kept, and whether each is the current one. -/
  held : List (String × Bool)
  journal : List String

namespace StoreStep

variable (ctx : Context) (h : Initializer)

def perform : StoreStep → Act World Unit
  | update value => World.update fun snapshot => Script.closed
      (Script.eval ctx (Script.interpreter ctx) ((Env.new h).bind "snapshot" snapshot) value)
  | emit => World.emit
  | watch label => World.follow (.journal label)
  | hold => pure ()

/-- The snapshots kept after a step. -/
def keep (held : List (Snapshot Arg)) (current : Snapshot Arg) : StoreStep → List (Snapshot Arg)
  | hold => held ++ [current]
  | _ => held

/-- Performs steps on the store that is open, given the snapshots kept so far. -/
def run (held : List (Snapshot Arg)) : List StoreStep → Act World (List StoreReport)
  | [] => pure []
  | step :: steps => do
      step.perform ctx h
      match (← get).store with
      | none => pure []
      | some store =>
          let held := step.keep held store.current
          let journal := (← get).journal.toList
          modify World.clearJournal
          let report : StoreReport :=
            { now := store.current.value.describe
              held := held.map fun s => (s.value.describe, s.identity = store.current.identity)
              journal }
          pure (report :: (← run held steps))

end StoreStep

/-- Opens a store with a value and performs steps on it. -/
def runStore (ctx : Context) (h : Initializer) (initial : Expr) (steps : List StoreStep) :
    Script.Eval (List StoreReport) := do
  let value ← Script.eval ctx (Script.interpreter ctx) (.new h) initial
  .ofAct do
    World.openStore value
    StoreStep.run ctx h [] steps

end Parlance
