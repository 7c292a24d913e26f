import Parlance.Schedule.Store
import Parlance.Text.Blank

/-! The world in which scripts run. Whatever has an identity has a cell, at the place that the identity
names, and the cells of functions hold the script together with the environment in which it was written.
Running scripts also leaves lines in a journal. -/

namespace Parlance

/-- What the expressions of a script refer to. -/
structure Env where
  initializer : Initializer
  names : Entries Arg
  args : List Arg

/-- The environment of a script that belongs to no word. -/
def Env.new (initializer : Initializer) : Env := ⟨initializer, [], []⟩

def Env.bind (env : Env) (name : String) (value : Arg) : Env := { env with names := env.names.put name value }

/-- A component as a script describes it: the name of its view, and whether it tells of its life in the
journal and listens to new props. -/
structure Description where
  env : Env
  definition : String
  reports : Bool

/-- What stands behind an identity. -/
inductive Cell where
  /-- A sentence, a list or a snapshot. -/
  | bare
  | record (content : Record)
  | render (env : Env) (calls : List Call) (label : Option String)
  | handler (env : Env) (label : String) (update : Option Expr)
  /-- A function that is called with an event and leaves only its name. -/
  | listener (label : String)
  | callback (label : String)
  | hook (label : String) (bare : Bool)
  | factory (description : Description)

/-- A component and its props. -/
structure Component where
  description : Description
  props : Arg

/-- What is told when the store changes. -/
inductive Follower where
  /-- Writes a line under a label. -/
  | journal (label : String)
  /-- Hands the snapshot to an app, by its number. -/
  | app (number : Nat)

structure World where
  cells : Array Cell
  /-- The components by their ids. -/
  components : Array Component
  /-- Names that are known everywhere. -/
  globals : Entries Arg
  /-- The lines left so far, oldest first. -/
  journal : Array String
  store : Option (Store Arg Follower)
  /-- The snapshots handed to apps that have not taken them yet, with the numbers of the apps. -/
  inbox : List (Nat × Snapshot Arg)

/-- What scripts refer to beyond their environment. -/
structure Context where
  registry : Registry
  /-- The lexicons by their keys. -/
  lexicons : List (String × Lexicon)
  /-- The views of components by name. -/
  views : List (String × List Call)

namespace World

def new : World := ⟨#[], #[], [], #[], none, []⟩

/-- Gives out a new identity for what a cell holds. -/
def alloc (cell : Cell) : Act World Identity := modifyGet fun world =>
  (⟨world.cells.size⟩, { world with cells := world.cells.push cell })

def fresh : Act World Identity := alloc .bare

def cell (world : World) (identity : Identity) : Cell := world.cells.getD identity.number .bare

/-- Writes a line into the journal, without blanks at its end. -/
def write (line : String) : Act World Unit := modify fun world =>
  { world with journal := world.journal.push (Text.trimEnd line) }

def clearJournal (world : World) : World := { world with journal := #[] }

def setGlobal (name : String) (value : Arg) (world : World) : World :=
  { world with globals := world.globals.put name value }

/-- Puts a new store without listeners in place of the old one. -/
def openStore (value : Arg) : Act World Unit := do
  let identity ← fresh
  modify fun world => { world with store := some (.new ⟨identity, value⟩) }

/-- What a follower does when it is told of a snapshot. -/
def notify : Follower → Snapshot Arg → Act World Unit
  | .journal label, snapshot => write s!"{label} {snapshot.value.describe}"
  | .app number, snapshot => modify fun world => { world with inbox := world.inbox ++ [(number, snapshot)] }

/-- The place of the store that is open. -/
def site (store : Store Arg Follower) : Site World Arg Follower :=
  ⟨fun world => world.store.getD store, fun store world => { world with store := some store }, notify⟩

/-- Tells the followers of the store, if one is open, about its snapshot. -/
def emit : Act World Unit := do
  match (← get).store with
  | some store => Store.emit (site store)
  | none => pure ()

/-- Replaces the snapshot of the store, if one is open, by a value made from it. -/
def update (f : Arg → Act World Arg) : Act World Unit := do
  match (← get).store with
  | some store => Store.update (site store) fun snapshot => do
      let value ← f snapshot.value
      pure ⟨← fresh, value⟩
  | none => pure ()

/-- Lets a follower hear of the changes of the store, if one is open. -/
def follow (follower : Follower) : Act World Unit := modify fun world =>
  { world with store := world.store.map (·.onChange follower) }

end World

end Parlance
