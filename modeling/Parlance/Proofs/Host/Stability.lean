import Parlance.Proofs.Host.Forests

/-! Nodes that stay where they are. By the rules a node that is older than a row of calls is never put anywhere, so if
it stands under a parent afterwards, it has stood there all the time: no call has moved it. -/

namespace Parlance

/-- The node that a call puts somewhere or takes away. -/
def Mutation.moved? : Mutation → Option NodeId
  | append _ n | insertBefore _ n _ | remove _ n => some n
  | _ => none

variable {R : Rules} {n p : NodeId}

namespace Ledger

variable {L : Ledger} {m : Mutation}

/-- A call that leaves an older node with a parent has not moved it. -/
theorem Fair.unmoved (hfair : Fair R L m) (hn : n.index < R.first) (hlt : n.index < L.count)
    (hparent : (L.after m).parent n = some p) : m.moved? ≠ some n ∧ L.parent n = some p := by
  have hput : ∀ {q k : NodeId} {L' : Ledger}, R.first ≤ k.index → L'.parent n = (if n = k then some q else L.parent n) →
      L'.parent n = some p → k ≠ n ∧ L.parent n = some p := by
    intro q k L' hk hafter hstands
    have hne : n ≠ k := by
      rintro rfl
      exact Nat.not_lt.mpr hk hn
    rw [hafter, if_neg hne] at hstands
    exact ⟨hne.symm, hstands⟩
  cases m with
  | append q k =>
      have hstays := hput hfair.2.2.1 rfl hparent
      exact ⟨fun heq => hstays.1 (Option.some.inj heq), hstays.2⟩
  | insertBefore q k a =>
      have hstays := hput hfair.2.2.1 rfl hparent
      exact ⟨fun heq => hstays.1 (Option.some.inj heq), hstays.2⟩
  | insertRaw q markup =>
      refine ⟨by simp [Mutation.moved?], ?_⟩
      have hne : n ≠ ⟨L.count⟩ := by
        rintro rfl
        exact Nat.lt_irrefl _ hlt
      simpa only [after, if_neg hne] using hparent
  | remove q k =>
      by_cases heq : n = k
      · simp [after, heq] at hparent
      · exact ⟨fun hk => heq (Option.some.inj hk).symm, by simpa only [after, if_neg heq] using hparent⟩
  | _ => exact ⟨by simp [Mutation.moved?], hparent⟩

theorem count_after (L : Ledger) (m : Mutation) : L.count ≤ (L.after m).count := by
  cases m <;> simp [after]

/-- A row of calls that leaves an older node with a parent has not moved it. -/
theorem Each.unmoved {ms : List Mutation} (heach : Each (Fair R) L ms) (hn : n.index < R.first) (hlt : n.index < L.count)
    (hparent : (L.run ms).parent n = some p) : (∀ m ∈ ms, m.moved? ≠ some n) ∧ L.parent n = some p := by
  induction ms generalizing L with
  | nil => exact ⟨by simp, hparent⟩
  | cons m ms ih =>
      obtain ⟨hrest, hthen⟩ := ih heach.2 (Nat.lt_of_lt_of_le hlt (count_after L m)) hparent
      obtain ⟨hfirst, hbefore⟩ := heach.1.unmoved hn hlt hthen
      refine ⟨fun m' hm' => ?_, hbefore⟩
      rcases List.mem_cons.mp hm' with rfl | hm'
      · exact hfirst
      · exact hrest m' hm'

end Ledger

/-- Nor has any work by the rules. -/
theorem Host.Works.unmoved {h h' : Host} (hworks : Works R h h') (hn : n.index < R.first) (hlt : n.index < h.count)
    (hparent : h'.parent n = some p) : h.parent n = some p ∧
      ∀ ms, h'.calls = h.calls ++ ms → ∀ m ∈ ms, m.moved? ≠ some n := by
  obtain ⟨ms, hcalls, hrun, heach⟩ := hworks.receives
  obtain ⟨hms, hbefore⟩ := heach.unmoved hn hlt (p := p) (hrun ▸ hparent)
  refine ⟨hbefore, fun ms' hcalls' => ?_⟩
  obtain rfl := List.append_cancel_left (hcalls.symm.trans hcalls')
  exact hms

end Parlance
