import Parlance.Proofs.Host.Entries

/-! The calls that a host records. They can be gone through again on a ledger that knows nothing but how many nodes
there are and which parent each of them has, so that it can be told of every call what it found when it came. -/

namespace Parlance

namespace Mutation

/-- The node that a call makes. -/
def made? : Mutation → Option NodeId
  | createElement n _ | createText n _ | createMarker n _ => some n
  | _ => none

/-- The node that a call writes on or binds a listener to, without moving any. -/
def inscribed? : Mutation → Option NodeId
  | setText n _ | setAttribute n _ _ | removeAttribute n _ | addClass n _ | removeClass n _ | toggleClass n _
  | setProperty n _ _ | removeProperty n _ | setDataset n _ _ | removeDataset n _ | setStyle n _ _ | removeStyle n _
  | addListener n _ | removeListener n _ | setId n _ | clearId n => some n
  | _ => none

/-- The nodes that a call names. -/
def named : Mutation → List NodeId
  | append p n | remove p n => [p, n]
  | insertBefore p n a => [p, n, a]
  | insertRaw p _ => [p]
  | m => m.inscribed?.toList

end Mutation

/-- What a row of calls may do: how many nodes there were when it began, whether something has failed before, and
whether it keeps to nodes that are there. -/
structure Rules where
  first : Nat
  failed : Prop
  inside : Prop

/-- How many nodes there are, and the parent of each. -/
structure Ledger where
  count : Nat
  parent : NodeId → Option NodeId

namespace Ledger

/-- The ledger after a call. -/
def after (L : Ledger) : Mutation → Ledger
  | .createElement _ _ | .createText _ _ | .createMarker _ _ => { L with count := L.count + 1 }
  | .append p n | .insertBefore p n _ => { L with parent := fun m => if m = n then some p else L.parent m }
  | .insertRaw p _ => ⟨L.count + 1, fun m => if m = ⟨L.count⟩ then some p else L.parent m⟩
  | .remove _ n => { L with parent := fun m => if m = n then none else L.parent m }
  | _ => L

/-- The ledger after a row of calls. -/
def run (L : Ledger) (ms : List Mutation) : Ledger := ms.foldl after L

/-- Whether every call of a row is as it should be for the ledger that it finds. -/
def Each (P : Ledger → Mutation → Prop) : Ledger → List Mutation → Prop
  | _, [] => True
  | L, m :: ms => P L m ∧ Each P (L.after m) ms

variable {P Q : Ledger → Mutation → Prop} {L : Ledger} {m : Mutation} {ms ms' : List Mutation}

theorem after_made {n : NodeId} (h : m.made? = some n) : L.after m = { L with count := L.count + 1 } := by
  cases m <;> first | rfl | cases h

theorem after_inscribed {n : NodeId} (h : m.inscribed? = some n) : L.after m = L := by
  cases m <;> first | rfl | cases h

theorem run_append (L : Ledger) (ms ms' : List Mutation) : L.run (ms ++ ms') = (L.run ms).run ms' := List.foldl_append

theorem run_inscribed (h : ∀ m ∈ ms, ∃ n, m.inscribed? = some n) : L.run ms = L := by
  induction ms with
  | nil => rfl
  | cons m ms ih =>
      obtain ⟨n, hn⟩ := h m List.mem_cons_self
      rw [run, List.foldl_cons, after_inscribed hn]
      exact ih fun m hm => h m (List.mem_cons_of_mem _ hm)

theorem each_append : Each P L (ms ++ ms') ↔ Each P L ms ∧ Each P (L.run ms) ms' := by
  induction ms generalizing L with
  | nil => simp [Each, run]
  | cons m ms ih =>
      rw [List.cons_append, Each, Each, ih, and_assoc]
      rfl

theorem Each.mono (hPQ : ∀ L m, P L m → Q L m) (h : Each P L ms) : Each Q L ms := by
  induction ms generalizing L with
  | nil => trivial
  | cons m ms ih => exact ⟨hPQ L m h.1, ih h.2⟩

theorem Each.inscribed (h : ∀ m ∈ ms, ∃ n, m.inscribed? = some n) (hP : ∀ m ∈ ms, P L m) : Each P L ms := by
  induction ms with
  | nil => trivial
  | cons m ms ih =>
      obtain ⟨n, hn⟩ := h m List.mem_cons_self
      refine ⟨hP m List.mem_cons_self, ?_⟩
      rw [after_inscribed hn]
      exact ih (fun m hm => h m (List.mem_cons_of_mem _ hm)) fun m hm => hP m (List.mem_cons_of_mem _ hm)

/-- What is put somewhere has been made in this row, and stands nowhere yet; and a removal names the parent that the
child has, unless it has none any more after something has failed. -/
def Fair (R : Rules) (L : Ledger) (m : Mutation) : Prop :=
  (R.inside → ∀ n ∈ m.named, n.index < L.count) ∧
    match m with
    | .createElement n _ | .createText n _ | .createMarker n _ => n = ⟨L.count⟩
    | .append p n | .insertBefore p n _ =>
        p.index < L.count ∧ R.first ≤ n.index ∧ n.index < L.count ∧ L.parent n = none
    | .insertRaw p _ => p.index < L.count
    | .remove p n => L.parent n = some p ∨ R.failed ∧ L.parent n = none
    | _ => True

theorem named_inscribed {n : NodeId} (h : m.inscribed? = some n) : m.named = [n] := by
  cases m <;> cases h <;> rfl

theorem named_made {n : NodeId} (h : m.made? = some n) : m.named = [] := by
  cases m <;> cases h <;> rfl

theorem fair_inscribed {R : Rules} {n : NodeId} (h : m.inscribed? = some n) (hn : R.inside → n.index < L.count) :
    Fair R L m := by
  refine ⟨fun hinside => ?_, by cases m <;> trivial⟩
  rw [named_inscribed h]
  simpa using hn hinside

theorem fair_made {R : Rules} (h : m.made? = some ⟨L.count⟩) : Fair R L m := by
  refine ⟨by simp [named_made h], ?_⟩
  cases m <;> cases h <;> rfl

end Ledger

namespace Host

/-- The calls received so far, oldest first. -/
def calls (h : Host) : List Mutation := h.mutations.toList

def ledger (h : Host) : Ledger := ⟨h.count, h.parent⟩

@[simp] theorem calls_record (h : Host) (m : Mutation) : (h.record m).calls = h.calls ++ [m] := Array.toList_push

@[simp] theorem calls_alloc (h : Host) (kind : NodeKind) : (h.alloc kind).calls = h.calls := rfl

@[simp] theorem calls_modify (h : Host) (n : NodeId) (f : Node → Node) : (h.modify n f).calls = h.calls := rfl

/-- A host has received calls that are as they should be, and its ledger is what they have made of the one before. -/
def Receives (P : Ledger → Mutation → Prop) (h h' : Host) : Prop :=
  ∃ ms, h'.calls = h.calls ++ ms ∧ h.ledger.run ms = h'.ledger ∧ Ledger.Each P h.ledger ms

namespace Receives

variable {P Q : Ledger → Mutation → Prop} {h h₁ h' : Host}

theorem refl (h : Host) : Receives P h h := ⟨[], (List.append_nil _).symm, rfl, trivial⟩

theorem trans (hfirst : Receives P h h₁) (hsecond : Receives P h₁ h') : Receives P h h' := by
  obtain ⟨ms, hcalls, hrun, heach⟩ := hfirst
  obtain ⟨ms', hcalls', hrun', heach'⟩ := hsecond
  refine ⟨ms ++ ms', by rw [hcalls', hcalls, List.append_assoc], by rw [Ledger.run_append, hrun, hrun'], ?_⟩
  rw [Ledger.each_append, hrun]
  exact ⟨heach, heach'⟩

theorem mono (hPQ : ∀ L m, P L m → Q L m) (h : Receives P h₁ h') : Receives Q h₁ h' := by
  obtain ⟨ms, hcalls, hrun, heach⟩ := h
  exact ⟨ms, hcalls, hrun, heach.mono hPQ⟩

/-- The same links, and calls that only inscribe. -/
theorem inscribed {ms : List Mutation} (hcount : h'.count = h.count) (hparent : ∀ n, h'.parent n = h.parent n)
    (hcalls : h'.calls = h.calls ++ ms) (hms : ∀ m ∈ ms, ∃ n, m.inscribed? = some n) (hP : ∀ m ∈ ms, P h.ledger m) :
    Receives P h h' := by
  refine ⟨ms, hcalls, ?_, .inscribed hms hP⟩
  rw [Ledger.run_inscribed hms, ledger, ledger, hcount, funext hparent]

end Receives

end Host

end Parlance
