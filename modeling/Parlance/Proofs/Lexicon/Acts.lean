import Parlance.Lexicon.Call

/-! Actions in sequence: one that succeeds has succeeded in each of its parts. -/

namespace Parlance.Act

variable {ε ω α β : Type}

theorem bind_eq_ok {m : EStateM ε ω α} {f : α → EStateM ε ω β} {w w' : ω} {x : β} :
    (m >>= f) w = .ok x w' ↔ ∃ a w₁, m w = .ok a w₁ ∧ f a w₁ = .ok x w' := by
  change EStateM.bind m f w = _ ↔ _
  unfold EStateM.bind
  cases m w with
  | ok a w₁ =>
      constructor
      · intro hf
        exact ⟨a, w₁, rfl, hf⟩
      · rintro ⟨a', w₁', heq, hf⟩
        cases heq
        exact hf
  | error err w₁ => simp

theorem pure_eq_ok {a x : α} {w w' : ω} : (pure a : EStateM ε ω α) w = .ok x w' ↔ a = x ∧ w = w' := by
  change EStateM.Result.ok a w = .ok x w' ↔ _
  simp

theorem forM_append_eq_ok {f : α → EStateM ε ω PUnit} {as as' : List α} {w w' : ω} :
    (as ++ as').forM f w = .ok ⟨⟩ w' ↔ ∃ w₁, as.forM f w = .ok ⟨⟩ w₁ ∧ as'.forM f w₁ = .ok ⟨⟩ w' := by
  induction as generalizing w with
  | nil =>
      constructor
      · exact fun h => ⟨w, rfl, h⟩
      · rintro ⟨w₁, hnil, h⟩
        cases hnil
        exact h
  | cons a as ih =>
      change (f a >>= fun _ => (as ++ as').forM f) w = _ ↔ ∃ w₁, (f a >>= fun _ => as.forM f) w = _ ∧ _
      simp only [bind_eq_ok, ih]
      constructor
      · rintro ⟨⟨⟩, w₁, ha, w₂, has, has'⟩
        exact ⟨w₂, ⟨⟨⟩, w₁, ha, has⟩, has'⟩
      · rintro ⟨w₂, ⟨⟨⟩, w₁, ha, has⟩, has'⟩
        exact ⟨⟨⟩, w₁, ha, w₂, has, has'⟩

/-- What each step of a traversal keeps, the traversal keeps. -/
theorem forM_keeps {f : α → EStateM ε ω PUnit} {I : ω → Prop} {as : List α}
    (hstep : ∀ a ∈ as, ∀ w w', f a w = .ok ⟨⟩ w' → I w → I w') {w w' : ω} (hrun : as.forM f w = .ok ⟨⟩ w')
    (hI : I w) : I w' := by
  induction as generalizing w with
  | nil =>
      obtain ⟨-, rfl⟩ := pure_eq_ok.mp hrun
      exact hI
  | cons a as ih =>
      obtain ⟨⟨⟩, w₁, ha, hrest⟩ := bind_eq_ok.mp hrun
      exact ih (fun a' ha' => hstep a' (List.mem_cons_of_mem a ha')) hrest (hstep a List.mem_cons_self w w₁ ha hI)

end Parlance.Act
