import Parlance.Lexicon.Call

/-! Stores: a current snapshot, and listeners that are told when it is replaced. A round of notices goes to
all listeners that were there when it began, in the order of subscription, and tells all of them about the
snapshot that was current then; a listener that updates the store starts a round of its own inside. -/

namespace Parlance

/-- A state of a store. Two snapshots are the same one if their identities agree. -/
structure Snapshot (σ : Type) where
  identity : Identity
  value : σ

structure Store (σ κ : Type) where
  current : Snapshot σ
  /-- The listeners in the order of subscription. -/
  listeners : List κ

/-- The place of a store in a world, and what its listeners do when they are told of a snapshot. -/
structure Site (ω σ κ : Type) where
  read : ω → Store σ κ
  write : Store σ κ → ω → ω
  notify : κ → Snapshot σ → Act ω Unit

namespace Store

variable {ω σ κ : Type}

def new (initial : Snapshot σ) : Store σ κ := ⟨initial, []⟩

def onChange (store : Store σ κ) (listener : κ) : Store σ κ :=
  { store with listeners := store.listeners ++ [listener] }

/-- One round of notices. -/
def emit (site : Site ω σ κ) : Act ω Unit := do
  let store := site.read (← get)
  store.listeners.forM fun listener => site.notify listener store.current

/-- Replaces the snapshot by one made from it, and tells the listeners. -/
def update (site : Site ω σ κ) (f : Snapshot σ → Act ω (Snapshot σ)) : Act ω Unit := do
  let next ← f (site.read (← get)).current
  modify fun world => site.write { site.read world with current := next } world
  emit site

end Store

end Parlance
