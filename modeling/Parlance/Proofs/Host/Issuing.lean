import Parlance.Proofs.Host.Links

/-! Listeners that a host has given out. Numbers are given out in order and never twice, so what is bound to a node goes
by a number that has been given out, whatever is done to the host. -/

namespace Parlance.Host

/-- All listeners on nodes have been given out. -/
def Issued (h : Host) : Prop := ∀ n, ∀ l ∈ h.bound n, 0 < l.1.number ∧ l.1.number ≤ h.listeners.size

/-- Listeners have come and gone, and those that have come have been given out meanwhile. -/
structure Relistens (h h' : Host) : Prop where
  size : h.listeners.size ≤ h'.listeners.size
  bound : ∀ n, ∀ l ∈ h'.bound n, l ∈ h.bound n ∨ h.listeners.size < l.1.number ∧ l.1.number ≤ h'.listeners.size

namespace Relistens

variable {h h₁ h' : Host}

theorem of_same (hbound : ∀ n, h'.bound n = h.bound n) (htargets : h'.listeners = h.listeners) : Relistens h h' :=
  ⟨Nat.le_of_eq (congrArg Array.size htargets.symm), fun n _ hl => .inl (hbound n ▸ hl)⟩

theorem refl (h : Host) : Relistens h h := of_same (fun _ => rfl) rfl

theorem trans (hfirst : Relistens h h₁) (hsecond : Relistens h₁ h') : Relistens h h' := by
  have hsize := hfirst.size
  have hsize' := hsecond.size
  refine ⟨Nat.le_trans hsize hsize', fun n l hl => ?_⟩
  rcases hsecond.bound n l hl with hl | ⟨hlate, hissued⟩
  · rcases hfirst.bound n l hl with hl | ⟨hlate, hissued⟩
    · exact .inl hl
    · exact .inr ⟨hlate, Nat.le_trans hissued hsize'⟩
  · exact .inr ⟨Nat.lt_of_le_of_lt hsize hlate, hissued⟩

theorem issued (hrelistens : Relistens h h') (hissued : h.Issued) : h'.Issued := by
  intro n l hl
  rcases hrelistens.bound n l hl with hl | ⟨hlate, hle⟩
  · exact (hissued n l hl).imp_right fun hle => Nat.le_trans hle hrelistens.size
  · exact ⟨Nat.lt_of_le_of_lt (Nat.zero_le _) hlate, hle⟩

theorem addListener (h : Host) (n : NodeId) (event : String) (listener : Listener) :
    Relistens h (h.addListener n event listener).2 := by
  have hsize : (h.addListener n event listener).2.listeners.size = h.listeners.size + 1 := Array.size_push _
  refine ⟨by omega, fun m l hl => ?_⟩
  by_cases hn : n.index < h.count
  · rw [bound_addListener h event listener m hn] at hl
    split at hl
    · rcases List.mem_append.mp hl with hl | hl
      · exact .inl hl
      · have hnumber : l.1.number = h.listeners.size + 1 := by
          rw [List.mem_singleton.mp hl]
          rfl
        exact .inr (by omega)
    · exact .inl hl
  · have hsame : (h.addListener n event listener).2.bound m = h.bound m := by
      unfold Host.addListener
      rw [Host.bound, node_record, node_modify, if_neg fun hand => hn hand.2]
      rfl
    exact .inl (hsame ▸ hl)

theorem removeListener (h : Host) (n : NodeId) (event : String) (id : ListenerId) :
    Relistens h (h.removeListener n event id) := by
  refine ⟨Nat.le_refl _, fun m l hl => .inl ?_⟩
  rw [bound_removeListener] at hl
  split at hl
  · exact (List.mem_filter.mp hl).1
  · exact hl

theorem rebind (h : Host) (id : ListenerId) (listener : Listener) : Relistens h (h.rebind id listener) :=
  ⟨Nat.le_of_eq Array.size_modify.symm, fun _ _ hl => .inl hl⟩

end Relistens

end Parlance.Host
