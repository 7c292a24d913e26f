import Parlance.Proofs.Engine.Correspondence
import Parlance.Proofs.Engine.Opening

/-! Diffing patches in place. Whatever a diff does, a slot whose word retains what it has is still the same slot
afterwards, wherever it stands among such slots: the same element, text node or marker, or the same component. -/

namespace Parlance

open Pass

variable {ω : Type} {b : Behaviour ω}

/-- A diff as deep as one likes patches its output. -/
def DiffPatches (diff : Engine → Cursor → Phrase → Rendered → Pass ω Rendered) : Prop :=
  ∀ ⦃e c phrase previous σ r σ'⦄, diff e c phrase previous σ = .ok r σ' → previous.Paired →
    ∀ cs, Holds σ.instances previous.slots cs → cs.Nodup →
      Patched σ.instances σ'.instances e previous.pairs r.pairs

variable {σ σ₁ σ' : Stage ω} {e : Engine} {cs : List InstanceId}

/-- Outputs are patched place by place. -/
def PatchedAll (t t' : Array Instance) (e : Engine) (rs rs' : List Rendered) : Prop :=
  ∀ (j : Nat) (q q' : Rendered), rs[j]? = some q → rs'[j]? = some q' → Patched t t' e q.pairs q'.pairs

/-- Outputs brought up to a list of things, after which those that are left over are taken away. -/
theorem matching_patched {α : Type} {new : α → Stage ω → Rendered → Stage ω → Prop}
    {kept : α → Rendered → Stage ω → Rendered → Stage ω → Prop} {as : List α} {olds rs rest : List Rendered}
    (hnew : ∀ {a σ r σ'}, new a σ r σ' → Renewal (blind b) σ [] σ' [r])
    (hkept : ∀ {a old σ r σ'}, kept a old σ r σ' → Renewal (blind b) σ [old] σ' [r])
    (hpatches : ∀ {a old σ r σ' cs}, kept a old σ r σ' → old.Paired → Holds σ.instances old.slots cs → cs.Nodup →
      Patched σ.instances σ'.instances e old.pairs r.pairs)
    (h : Engine.Matching new kept as olds σ rs rest σ₁) (hrest : Renewal (blind b) σ₁ rest σ' [])
    (hpaired : ∀ r ∈ olds, r.Paired) (hholds : Holds σ.instances (slotsOf olds) cs) (hnodup : cs.Nodup) :
    PatchedAll σ.instances σ'.instances e olds rs := by
  induction h generalizing cs with
  | rest => simp [PatchedAll]
  | new => simp [PatchedAll]
  | @kept a as old r olds rs rest σ σ₂ σ₁ head tail ih =>
      have htail := (matching_renewal (Watch.blind b) hnew hkept tail).trans (hrest.append_left rs)
      rw [List.append_nil] at htail
      have hold := hpaired old List.mem_cons_self
      have holds' : ∀ r ∈ olds, r.Paired := fun r hr => hpaired r (List.mem_cons_of_mem _ hr)
      obtain ⟨hr, hturn⟩ := hkept head (by simpa using hold)
      obtain ⟨hrs, hturn'⟩ := htail holds'
      rw [slotsOf_cons, slotsOf_nil, List.append_nil, slotsOf_cons, slotsOf_nil, List.append_nil] at hturn
      rw [slotsOf_cons] at hholds
      obtain ⟨own, ids, own', ids', rfl, ⟨hnodupA, hnodupC⟩, ⟨hown, hown'⟩, ⟨hids, hids'⟩, hagree, hagree'⟩ :=
        hturn.abreast hturn' hholds hnodup
      have hr' := hr r List.mem_cons_self
      intro j q q' hq hq'
      cases j with
      | zero =>
          rw [List.getElem?_cons_zero, Option.some.injEq] at hq hq'
          subst hq hq'
          exact (hpatches head hold hown hnodupA).congr (hold.map_snd.symm ▸ hown) (fun _ _ => rfl)
            (hr'.map_snd.symm ▸ hown') hagree'
      | succ j =>
          rw [List.getElem?_cons_succ] at hq hq'
          have hmem := List.mem_of_getElem? hq
          have hmem' := List.mem_of_getElem? hq'
          obtain ⟨part, hpart, hsub⟩ : ∃ part, Holds σ₂.instances q.slots part ∧ ∀ id ∈ part, id ∈ ids := by
            have hslot : Holds σ₂.instances [.each default olds] (ids ++ []) :=
              .part (by simp) holds' (hids.congr hagree) .nil
            obtain ⟨part, hpart, hsub, -⟩ := hslot.of_part hmem
            exact ⟨part, hpart, fun id hid => by simpa using hsub id hid⟩
          obtain ⟨part', hpart', -⟩ : ∃ part', Holds σ'.instances q'.slots part' ∧ True := by
            have hslot : Holds σ'.instances [.each default rs] (ids' ++ []) := .part (by simp) hrs hids' .nil
            obtain ⟨part', hpart', -⟩ := hslot.of_part hmem'
            exact ⟨part', hpart', trivial⟩
          exact (ih hrest holds' (hids.congr hagree) hnodupC j q q' hq hq').congr
            ((holds' q hmem).map_snd.symm ▸ hpart) (fun id hid => Eq.symm (hagree id (hsub id hid)))
            ((hrs q' hmem').map_snd.symm ▸ hpart') fun _ _ => rfl

section Steps

variable {render : Cursor → Phrase → Pass ω Rendered} {diff : Engine → Cursor → Phrase → Rendered → Pass ω Rendered}
variable {c : Cursor} {lexem old : Lexem} {slot slot' : Slot}

/-- A slot that stays under a word in the place of another one. -/
theorem Patched.stay (hholds : Holds σ.instances [slot] cs) (hagree : ∀ id ∈ cs, Agree σ.instances σ'.instances id) :
    Patched σ.instances σ'.instances e [(old, slot)] [(lexem, slot)] := by
  refine .one (fun _ => ⟨Slot.anchors_congr hholds hagree, rfl⟩) (fun _ j q q' hq hq' => ?_) ?_
  · cases hq.symm.trans hq'
    obtain ⟨own, hown, hsub, hpaired⟩ := hholds.of_part (List.mem_of_getElem? hq)
    exact .same (hpaired.map_snd.symm ▸ hown) fun id hid => hagree id (hsub id hid)
  · rintro id id' i i' q q' rfl ⟨⟩ hpresent hdeveloped hpresent' hdeveloped'
    obtain ⟨j, r, inner, rfl, hj, hr, hpaired, -, hinner⟩ := hholds.of_component
    cases hpresent.symm.trans hj
    cases hdeveloped.symm.trans hr
    obtain ⟨k, hk, hcore⟩ := (hagree id (by simp)).some hpresent
    cases hpresent'.symm.trans hk
    cases hdeveloped'.symm.trans ((Instance.developed_of_core hcore).trans hdeveloped)
    exact .same (hpaired.map_snd.symm ▸ hinner) fun id hid => hagree id (List.mem_append_left _ hid)

/-- A slot of a marker or an element, by what happens inside. -/
theorem Patched.part (hanchor : slot.anchors σ.instances = slot'.anchors σ'.instances)
    (hslot : slot.component? = none) (hslot' : slot'.component? = none)
    (hparts : e.Retains lexem old → PatchedAll σ.instances σ'.instances e slot.parts slot'.parts) :
    Patched σ.instances σ'.instances e [(old, slot)] [(lexem, slot')] := by
  refine .one (fun _ => ⟨hanchor.symm, hslot'.trans hslot.symm⟩) (fun hretains => hparts hretains) ?_
  rintro id id' i i' q q' rfl
  cases hslot

/-- A component that is rendered again. -/
theorem update_patched (hdiffs : Diffs (Watch.blind b) diff) (hdiff : DiffPatches diff) {id : InstanceId}
    (h : Engine.UpdateStep b diff id σ σ') (hholds : Holds σ.instances [.component id] cs) (hnodup : cs.Nodup) :
    Patched σ.instances σ'.instances e [(old, .component id)] [(lexem, .component id)] := by
  obtain ⟨i, j, previous, next, s, w, σ₁, inner, inner', hpresent, hdeveloped, hpaired, ⟨hinner, hinnerNodup⟩, hagree,
    hrun, rfl, hpaired', hinner', hagree', hj, hnext, -, -, hwitness⟩ := h.opens hdiffs hholds hnodup
  refine .one (fun _ => ⟨?_, rfl⟩) (fun _ _ _ _ hq => by simp [Slot.parts] at hq) ?_
  · rw [Slot.anchors, Slot.anchors, hpresent, hj, Option.bind_some, Option.bind_some, hwitness]
  · rintro _ _ i₁ j₁ q q' ⟨⟩ ⟨⟩ hpresent₁ hdeveloped₁ hj₁ hnext₁
    cases hpresent.symm.trans hpresent₁
    cases hdeveloped.symm.trans hdeveloped₁
    cases hj.symm.trans hj₁
    cases hnext.symm.trans hnext₁
    have hopened := hinner.congr hagree
    have hpatched := hdiff hrun hpaired inner hopened hinnerNodup
    exact hpatched.congr (hpaired.map_snd.symm ▸ hopened) (fun child hchild => Eq.symm (hagree child hchild))
      (hpaired'.map_snd.symm ▸ hinner') hagree'

/-- A diff of a lexem patches its slot. -/
theorem DiffStep.patched (hrenders : Renders (Watch.blind b) render) (hdiffs : Diffs (Watch.blind b) diff)
    (hdiff : DiffPatches diff) (h : Engine.DiffStep b render diff e c lexem old σ slot slot' σ')
    (hholds : Holds σ.instances [slot] cs) (hnodup : cs.Nodup) :
    Patched σ.instances σ'.instances e [(old, slot)] [(lexem, slot')] := by
  have hstay : ∀ {σ' : Stage ω} {slot : Slot}, Holds σ.instances [slot] cs →
      (∀ id, Agree σ.instances σ'.instances id) → Patched σ.instances σ'.instances e [(old, slot)] [(lexem, slot)] :=
    fun hholds hagree => .stay hholds fun id _ => hagree id
  have hparts : ∀ {slot : Slot}, (∀ id, slot ≠ .component id) → Holds σ.instances [slot] cs →
      (∀ r ∈ slot.parts, r.Paired) ∧ Holds σ.instances (slotsOf slot.parts) cs := by
    intro slot hslot hholds
    cases hholds with
    | component => exact absurd rfl (hslot _)
    | part _ hpaired hinner houter =>
        cases houter
        rw [List.append_nil]
        exact ⟨hpaired, hinner⟩
  -- a single output inside a slot
  have hsingle : ∀ {σ₁ : Stage ω} {c : Cursor} {phrase : Phrase} {previous r : Rendered},
      diff e c phrase previous σ₁ = .ok r σ' → σ₁.instances = σ.instances → previous.Paired →
      Holds σ.instances (slotsOf [previous]) cs → PatchedAll σ.instances σ'.instances e [previous] [r] := by
    intro σ₁ c phrase previous r hrun hsame hpaired hheld j q q' hq hq'
    obtain rfl := List.mem_singleton.mp (List.mem_of_getElem? hq)
    obtain rfl := List.mem_singleton.mp (List.mem_of_getElem? hq')
    rw [slotsOf_cons, slotsOf_nil, List.append_nil] at hheld
    rw [← hsame] at hheld ⊢
    exact hdiff hrun hpaired _ hheld hnodup
  cases h with
  | kept => exact hstay hholds fun _ => rfl
  | rewritten => exact hstay hholds fun _ => rfl
  | text => exact hstay hholds fun _ => rfl
  | rebound => exact hstay hholds fun _ => rfl
  | hook => exact hstay hholds fun _ => rfl
  | rehooked => exact hstay hholds fun _ => rfl
  | callback => exact hstay hholds fun _ => rfl
  | name _ _ hname =>
      obtain ⟨t, rfl, -, hagree⟩ := nameNode_ok hname
      exact hstay hholds hagree
  | moved => exact .part rfl rfl rfl fun _ => by simp [PatchedAll, Slot.parts]
  | raw => exact .part rfl rfl rfl fun _ => by simp [PatchedAll, Slot.parts]
  | redeveloped _ _ _ _ hrun =>
      obtain ⟨hpaired, hinner⟩ := hparts (by simp) hholds
      exact .part rfl rfl rfl fun _ => hsingle hrun rfl (hpaired _ List.mem_cons_self) hinner
  | @retagged _ _ tag oldTag _ _ _ hword htag holdTag hne =>
      have hnot : ¬ e.Retains lexem old := fun hretains => hne (by
        have heq := hretains.tag hword
        rw [htag, holdTag] at heq
        exact Except.ok.inj heq)
      exact .one (fun hretains => absurd hretains hnot) (fun hretains => absurd hretains hnot) nofun
  | @tag node _ _ _ _ _ _ _ _ _ _ hkids hrest =>
      obtain ⟨hpaired, hinner⟩ := hparts (by simp) hholds
      refine .part rfl rfl rfl fun _ => matching_patched ?_ ?_ ?_ hkids
        (teardowns_renewal (Watch.blind b) hrest) hpaired hinner hnodup
      · rintro _ _ _ _ ⟨phrase, -, hrun⟩
        exact hrenders hrun
      · intro _ _ _ _ _ hchild
        cases hchild with
        | same => exact .refl
        | diffed _ hrun => exact hdiffs hrun
      · intro _ _ _ _ _ _ hchild hpaired hheld hnodup
        cases hchild with
        | same => exact .same (hpaired.map_snd.symm ▸ hheld) fun _ _ => rfl
        | diffed _ hrun => exact hdiff hrun hpaired _ hheld hnodup
  | branch _ _ _ _ _ hrun =>
      obtain ⟨hpaired, hinner⟩ := hparts (by simp) hholds
      exact .part rfl rfl rfl fun _ => hsingle hrun rfl (hpaired _ List.mem_cons_self) hinner
  | @flipped i _ _ chosen _ _ developed developed' _ _ _ hword hchoice hflips _ _ hchain =>
      refine .part rfl rfl rfl fun hretains j q q' hq hq' => ?_
      have hstands : lexem.flips old i = false := by
        cases i <;> cases hchoice
        · simp [Lexem.flips, hretains.ifElse hword]
        · simp [Lexem.flips, hretains.switchUse hword]
      rcases hflips with hflips | rfl | rfl
      · simp [hstands] at hflips
      · have hnone := hchain.length_eq
        cases developed' with
        | none => simp [Slot.parts] at hq'
        | some => simp at hnone
      · simp [Slot.parts] at hq
  | @each _ w _ _ _ _ _ _ _ _ _ hitems hrest =>
      obtain ⟨hpaired, hinner⟩ := hparts (by simp) hholds
      refine .part rfl rfl rfl fun _ => ?_
      change PatchedAll (σ.inWorld w).instances _ _ _ _
      refine matching_patched ?_ ?_ ?_ hitems (teardowns_renewal (Watch.blind b) hrest) hpaired hinner hnodup
      · exact fun hrun => hrenders hrun
      · exact fun hrun => hdiffs hrun
      · exact fun hrun hpaired hheld hnodup => hdiff hrun hpaired _ hheld hnodup
  | @component _ _ w _ _ _ _ _ _ _ hupdate =>
      change Patched (σ.inWorld w).instances _ _ _ _
      exact update_patched hdiffs hdiff hupdate hholds hnodup

/-- A diff of lexems one after the other patches each slot in its place. -/
theorem DiffSteps.patched (hrenders : Renders (Watch.blind b) render) (hdiffs : Diffs (Watch.blind b) diff)
    (hdiff : DiffPatches diff) {lexems olds : List Lexem} {slots slots' : List Slot}
    (h : Engine.DiffSteps b render diff e c lexems olds slots σ slots' σ') (hholds : Holds σ.instances slots cs)
    (hnodup : cs.Nodup) : Patched σ.instances σ'.instances e (olds.zip slots) (lexems.zip slots') := by
  induction h generalizing cs with
  | nil =>
      cases hholds
      exact .same .nil fun _ _ => rfl
  | @cons lexem old lexems olds slot slot' slots slots' σ σ₁ σ' _ head tail ih =>
      rw [← List.singleton_append] at hholds
      obtain ⟨own, ids, own', ids', rfl, ⟨hnodupA, hnodupC⟩, ⟨hown, hown'⟩, ⟨hids, hids'⟩, hagree, hagree'⟩ :=
        (DiffStep.turn (Watch.blind b) hrenders hdiffs head).abreast
          (DiffSteps.turn (Watch.blind b) hrenders hdiffs tail) hholds hnodup
      have hlater := hids.congr hagree
      have hslots : (olds.zip slots).map (·.2) = slots :=
        List.map_snd_zip (Nat.le_of_eq (tail.slots_length))
      have hslots' : (lexems.zip slots').map (·.2) = slots' :=
        List.map_snd_zip (Nat.le_of_eq tail.length_eq)
      refine .cons ?_ ?_
      · exact (DiffStep.patched hrenders hdiffs hdiff head hown hnodupA).congr hown (fun _ _ => rfl) hown' hagree'
      · exact (ih hlater hnodupC).congr (hslots.symm ▸ hlater) (fun id hid => Eq.symm (hagree id hid))
          (hslots'.symm ▸ hids') fun _ _ => rfl

end Steps

theorem diffWithin_patched {depth : Nat} : DiffPatches (Engine.diffWithin b depth) := by
  induction depth with
  | zero =>
      intro e c phrase previous σ r σ' h
      cases h
  | succ depth ih =>
      intro e c phrase previous σ r σ' h hpaired cs hholds hnodup
      rcases Engine.diffPhrase_ok hpaired h with ⟨-, rfl, rfl⟩ | ⟨-, slots, rfl, hsteps⟩
      · exact .same (hpaired.map_snd.symm ▸ hholds) fun _ _ => rfl
      · exact DiffSteps.patched (renderWithin_renewal (Watch.blind b)) (diffWithin_renewal (Watch.blind b)) ih hsteps
          hholds hnodup

end Parlance
