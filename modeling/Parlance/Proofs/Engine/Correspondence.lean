import Parlance.Proofs.Engine.Posts
import Parlance.Proofs.Engine.Standing

/-! Which slot of an output stands in the place of which slot of an earlier one: slots of words at the same index,
inside slots that retain what they have, by the same child, item or chosen branch, and inside components by what they
have developed. This is about the two outputs and their words only, and says nothing of how one came of the other. -/

namespace Parlance

/-- The nodes that a slot goes by: its element, its text node or its marker. A component goes by the marker that it was
mounted with. -/
def Slot.anchors (t : Array Instance) : Slot → List NodeId
  | .element node _ | .text node | .branch node _ | .each node _ | .raw node _ => [node]
  | .component id => ((t[id.index]?).bind (·.witness)).toList
  | _ => []

def Slot.component? : Slot → Option InstanceId
  | .component id => some id
  | _ => none

/-- The lexems of an output, each with its slot. -/
def Rendered.pairs (r : Rendered) : List (Lexem × Slot) := r.sentence.lexems.zip r.slots

/-- Whether a word lets its slot be what it was under the word before: a tag with the same name, an `if` that is as true
as before, and a `switchUse` with the same reference. Every other word does. -/
structure Engine.Retains (e : Engine) (lexem old : Lexem) : Prop where
  tag : e.instruction? lexem = some .tag → lexem.stringArg 0 = old.stringArg 0
  ifElse : e.instruction? lexem = some .ifElse → (lexem.arg 0).isTruthy = (old.arg 0).isTruthy
  switchUse : e.instruction? lexem = some .switchUse → (lexem.arg 0).same (old.arg 0) = true

/-- A word with its slot, and the one in its place in a later output, with the engine that carries them out. -/
inductive Counterpart (t t' : Array Instance) :
    Engine → List (Lexem × Slot) → List (Lexem × Slot) → Engine → Lexem × Slot → Lexem × Slot → Prop
  | here {e : Engine} {ws ws' : List (Lexem × Slot)} {w w' : Lexem × Slot} {k : Nat} (hold : ws[k]? = some w)
      (hnew : ws'[k]? = some w') : Counterpart t t' e ws ws' e w w'
  | inside {e e₁ : Engine} {ws ws' : List (Lexem × Slot)} {outer outer' w w' : Lexem × Slot} {q q' : Rendered}
      {k j : Nat} (hold : ws[k]? = some outer) (hnew : ws'[k]? = some outer')
      (hretains : e.Retains outer'.1 outer.1) (hpart : outer.2.parts[j]? = some q)
      (hpart' : outer'.2.parts[j]? = some q') (hinner : Counterpart t t' e q.pairs q'.pairs e₁ w w') :
      Counterpart t t' e ws ws' e₁ w w'
  | component {e e₁ : Engine} {ws ws' : List (Lexem × Slot)} {old lexem : Lexem} {w w' : Lexem × Slot}
      {id id' : InstanceId} {i i' : Instance} {q q' : Rendered} {k : Nat} (hold : ws[k]? = some (old, .component id))
      (hnew : ws'[k]? = some (lexem, .component id')) (hpresent : t[id.index]? = some i)
      (hdeveloped : i.developed = some q) (hpresent' : t'[id'.index]? = some i') (hdeveloped' : i'.developed = some q')
      (hinner : Counterpart t t' i.engine q.pairs q'.pairs e₁ w w') : Counterpart t t' e ws ws' e₁ w w'

/-- A slot that still is what the slot before it was. -/
structure Slot.Remains (t t' : Array Instance) (slot slot' : Slot) : Prop where
  anchors : slot'.anchors t' = slot.anchors t
  component : slot'.component? = slot.component?

/-- All slots remain what they were whose words retain what they have. -/
def Patched (t t' : Array Instance) (e : Engine) (ws ws' : List (Lexem × Slot)) : Prop :=
  ∀ e₁ w w', Counterpart t t' e ws ws' e₁ w w' → e₁.Retains w'.1 w.1 → w.2.Remains t t' w'.2

theorem Rendered.Paired.map_snd {r : Rendered} (h : r.Paired) : r.pairs.map (·.2) = r.slots :=
  List.map_snd_zip (Nat.le_of_eq h)

section Tables

variable {t t' t₁ t₁' : Array Instance} {slot : Slot} {cs cs' : List InstanceId}

/-- What a part of a slot holds is part of what the slot holds. -/
theorem Holds.of_part {q : Rendered} (h : Holds t [slot] cs) (hq : q ∈ slot.parts) :
    ∃ own, Holds t q.slots own ∧ (∀ id ∈ own, id ∈ cs) ∧ q.Paired := by
  cases h with
  | component => simp [Slot.parts] at hq
  | part _ hpaired hinner houter =>
      obtain ⟨before, after, hparts⟩ := List.append_of_mem hq
      rw [hparts, slotsOf_append, slotsOf_cons] at hinner
      obtain ⟨_, _, rfl, -, hrest⟩ := hinner.split
      obtain ⟨own, _, rfl, hown, -⟩ := hrest.split
      exact ⟨own, hown, fun id hid => by simp [hid], hpaired q hq⟩

/-- Tables that agree about what a slot holds agree about its nodes. -/
theorem Slot.anchors_congr (h : Holds t [slot] cs) (hagree : ∀ id ∈ cs, Agree t t₁ id) :
    slot.anchors t₁ = slot.anchors t := by
  cases slot with
  | component id =>
      obtain ⟨i, r, inner, rfl, hpresent, -⟩ := h.of_component
      obtain ⟨i₁, hpresent₁, hcore⟩ := (hagree id (by simp)).some hpresent
      rw [anchors, anchors, hpresent, hpresent₁, Option.bind_some, Option.bind_some, Placed.witness_of_core hcore]
  | _ => rfl

end Tables

namespace Stands

variable {t t₁ : Array Instance} {p q : NodeId} {slots : List Slot} {outer slot : Slot}

/-- What stands under one parent would stand under another one just as well. -/
theorem under (h : Stands t p slots q slot) (p' : NodeId) : ∃ q', Stands t p' slots q' slot := by
  induction h generalizing p' with
  | here hslot => exact ⟨p', .here hslot⟩
  | plain houter hplain _ ih =>
      obtain ⟨q', hstands⟩ := ih p'
      exact ⟨q', .plain houter hplain hstands⟩
  | element houter hinner => exact ⟨_, .element houter hinner⟩
  | component houter hpresent hdeveloped _ ih =>
      obtain ⟨q', hstands⟩ := ih p'
      exact ⟨q', .component houter hpresent hdeveloped hstands⟩

/-- What stands in a slot that is no component. -/
theorem inside (houter : outer ∈ slots) (hslot : ∀ id, outer ≠ .component id)
    (h : Stands t (outer.inside p) (slotsOf outer.parts) q slot) : Stands t p slots q slot := by
  cases outer with
  | element n kids => exact .element houter h
  | component id => exact absurd rfl (hslot id)
  | _ => exact .plain houter trivial h

/-- Where a slot stands is told by the components that are held, and so are its nodes. -/
theorem congr {cs : List InstanceId} (h : Stands t p slots q slot) (hholds : Holds t slots cs)
    (hagree : ∀ id ∈ cs, Agree t t₁ id) : Stands t₁ p slots q slot ∧ slot.anchors t₁ = slot.anchors t := by
  have hparts : ∀ {outer : Slot} {slots : List Slot} {cs : List InstanceId}, outer ∈ slots →
      (∀ id, outer ≠ .component id) → Holds t slots cs → (∀ id ∈ cs, Agree t t₁ id) →
      ∃ own, Holds t (slotsOf outer.parts) own ∧ ∀ id ∈ own, Agree t t₁ id := by
    intro outer slots cs houter hslot hholds hagree
    obtain ⟨own, hown, hsub⟩ := hholds.of_mem houter
    cases hown with
    | component => exact absurd rfl (hslot _)
    | part _ _ hinner _ => exact ⟨_, hinner, fun id hid => hagree id (hsub id (List.mem_append_left _ hid))⟩
  induction h generalizing cs with
  | here hslot =>
      obtain ⟨own, hown, hsub⟩ := hholds.of_mem hslot
      exact ⟨.here hslot, Slot.anchors_congr hown fun id hid => hagree id (hsub id hid)⟩
  | @plain _ _ _ outer _ houter hplain _ ih =>
      obtain ⟨own, hown, hsame⟩ := hparts houter (by rintro id rfl; exact hplain) hholds hagree
      exact (ih hown hsame).imp_left fun hstands => .plain houter hplain hstands
  | element houter _ ih =>
      obtain ⟨own, hown, hsame⟩ := hparts houter nofun hholds hagree
      exact (ih hown hsame).imp_left fun hstands => .element houter hstands
  | component houter hpresent hdeveloped _ ih =>
      obtain ⟨own, hown, hsub⟩ := hholds.of_mem houter
      obtain ⟨j, r, inner, rfl, hj, hr, -, -, hinner⟩ := hown.of_component
      cases hpresent.symm.trans hj
      cases hdeveloped.symm.trans hr
      obtain ⟨k, hk, hcore⟩ := (hagree _ (hsub _ (by simp))).some hpresent
      exact (ih hinner fun id hid => hagree id (hsub id (List.mem_append_left _ hid))).imp_left fun hstands =>
        .component houter hk ((Instance.developed_of_core hcore).trans hdeveloped) hstands

end Stands

namespace Counterpart

variable {t t' t₁ t₁' : Array Instance} {e e₁ : Engine} {ws ws' : List (Lexem × Slot)} {w w' : Lexem × Slot}
variable {cs cs' : List InstanceId}

/-- What stands in the place of what is told by the components that are held. -/
theorem congr (h : Counterpart t t' e ws ws' e₁ w w') (hholds : Holds t (ws.map (·.2)) cs)
    (hagree : ∀ id ∈ cs, Agree t t₁ id) (hholds' : Holds t' (ws'.map (·.2)) cs')
    (hagree' : ∀ id ∈ cs', Agree t' t₁' id) : Counterpart t₁ t₁' e ws ws' e₁ w w' ∧
      w.2.anchors t₁ = w.2.anchors t ∧ w'.2.anchors t₁' = w'.2.anchors t' := by
  induction h generalizing cs cs' with
  | here hold hnew =>
      obtain ⟨own, hown, hsub⟩ := hholds.of_mem (List.mem_map_of_mem (List.mem_of_getElem? hold))
      obtain ⟨own', hown', hsub'⟩ := hholds'.of_mem (List.mem_map_of_mem (List.mem_of_getElem? hnew))
      exact ⟨.here hold hnew, Slot.anchors_congr hown fun id hid => hagree id (hsub id hid),
        Slot.anchors_congr hown' fun id hid => hagree' id (hsub' id hid)⟩
  | inside hold hnew hretains hpart hpart' _ ih =>
      obtain ⟨own, hown, hsub⟩ := hholds.of_mem (List.mem_map_of_mem (List.mem_of_getElem? hold))
      obtain ⟨own', hown', hsub'⟩ := hholds'.of_mem (List.mem_map_of_mem (List.mem_of_getElem? hnew))
      obtain ⟨part, hq, hpartSub, hpaired⟩ := hown.of_part (List.mem_of_getElem? hpart)
      obtain ⟨part', hq', hpartSub', hpaired'⟩ := hown'.of_part (List.mem_of_getElem? hpart')
      obtain ⟨hinner, hanchors⟩ := ih (hpaired.map_snd.symm ▸ hq) (fun id hid => hagree id (hsub id (hpartSub id hid)))
        (hpaired'.map_snd.symm ▸ hq') fun id hid => hagree' id (hsub' id (hpartSub' id hid))
      exact ⟨.inside hold hnew hretains hpart hpart' hinner, hanchors⟩
  | @component _ _ _ _ _ _ _ _ id id' i i' q q' _ hold hnew hpresent hdeveloped hpresent' hdeveloped' _ ih =>
      obtain ⟨own, hown, hsub⟩ := hholds.of_mem (List.mem_map_of_mem (List.mem_of_getElem? hold))
      obtain ⟨own', hown', hsub'⟩ := hholds'.of_mem (List.mem_map_of_mem (List.mem_of_getElem? hnew))
      obtain ⟨j, r, inner, rfl, hj, hr, hpaired, -, hinner⟩ := hown.of_component
      obtain ⟨j', r', inner', rfl, hj', hr', hpaired', -, hinner'⟩ := hown'.of_component
      cases hpresent.symm.trans hj
      cases hdeveloped.symm.trans hr
      cases hpresent'.symm.trans hj'
      cases hdeveloped'.symm.trans hr'
      obtain ⟨hfacing, hanchors⟩ := ih (hpaired.map_snd.symm ▸ hinner)
        (fun id hid => hagree id (hsub id (List.mem_append_left _ hid))) (hpaired'.map_snd.symm ▸ hinner')
        fun id hid => hagree' id (hsub' id (List.mem_append_left _ hid))
      obtain ⟨k, hk, hcore⟩ := (hagree id (hsub id (by simp))).some hpresent
      obtain ⟨k', hk', hcore'⟩ := (hagree' id' (hsub' id' (by simp))).some hpresent'
      refine ⟨.component hold hnew hk ((Instance.developed_of_core hcore).trans hdeveloped) hk'
        ((Instance.developed_of_core hcore').trans hdeveloped') ?_, hanchors⟩
      rwa [Census.engine_of_core hcore]

/-- In an output that has stayed as it was every slot stands in its own place. -/
theorem same (h : Counterpart t t' e ws ws' e₁ w w') (heq : ws = ws') (hholds : Holds t (ws.map (·.2)) cs)
    (hagree : ∀ id ∈ cs, Agree t t' id) : w = w' ∧ w.2.anchors t' = w.2.anchors t := by
  induction h generalizing cs with
  | here hold hnew =>
      subst heq
      obtain ⟨own, hown, hsub⟩ := hholds.of_mem (List.mem_map_of_mem (List.mem_of_getElem? hold))
      cases hold.symm.trans hnew
      exact ⟨rfl, Slot.anchors_congr hown fun id hid => hagree id (hsub id hid)⟩
  | inside hold hnew _ hpart hpart' _ ih =>
      subst heq
      obtain ⟨own, hown, hsub⟩ := hholds.of_mem (List.mem_map_of_mem (List.mem_of_getElem? hold))
      obtain ⟨part, hq, hpartSub, hpaired⟩ := hown.of_part (List.mem_of_getElem? hpart)
      cases hold.symm.trans hnew
      cases hpart.symm.trans hpart'
      exact ih rfl (hpaired.map_snd.symm ▸ hq) fun id hid => hagree id (hsub id (hpartSub id hid))
  | @component _ _ _ _ _ _ _ _ id id' i i' q q' _ hold hnew hpresent hdeveloped hpresent' hdeveloped' _ ih =>
      subst heq
      obtain ⟨own, hown, hsub⟩ := hholds.of_mem (List.mem_map_of_mem (List.mem_of_getElem? hold))
      obtain ⟨j, r, inner, rfl, hj, hr, hpaired, -, hinner⟩ := hown.of_component
      cases hold.symm.trans hnew
      cases hpresent.symm.trans hj
      cases hdeveloped.symm.trans hr
      obtain ⟨k, hk, hcore⟩ := (hagree id (hsub id (by simp))).some hpresent
      cases hpresent'.symm.trans hk
      cases hdeveloped'.symm.trans ((Instance.developed_of_core hcore).trans hdeveloped)
      exact ih rfl (hpaired.map_snd.symm ▸ hinner) fun id hid => hagree id (hsub id (List.mem_append_left _ hid))

/-- Both slots stand in their outputs. -/
theorem stands (h : Counterpart t t' e ws ws' e₁ w w') (hholds : Holds t (ws.map (·.2)) cs)
    (hholds' : Holds t' (ws'.map (·.2)) cs') (p p' : NodeId) : (∃ q, Stands t p (ws.map (·.2)) q w.2) ∧
      ∃ q, Stands t' p' (ws'.map (·.2)) q w'.2 := by
  have hpart : ∀ {t : Array Instance} {ws : List (Lexem × Slot)} {outer w : Lexem × Slot} {q : Rendered} {p : NodeId},
      outer ∈ ws → q ∈ outer.2.parts → q.Paired → (∀ p, ∃ m, Stands t p (q.pairs.map (·.2)) m w.2) →
      ∃ m, Stands t p (ws.map (·.2)) m w.2 := by
    intro t ws outer w q p houter hq hpaired hstands
    obtain ⟨m, hm⟩ := hstands (outer.2.inside p)
    refine ⟨m, .inside (List.mem_map_of_mem houter) (fun id heq => by simp [heq, Slot.parts] at hq) ?_⟩
    rw [hpaired.map_snd] at hm
    exact hm.mono fun _ hslot => List.mem_flatMap.mpr ⟨q, hq, hslot⟩
  induction h generalizing cs cs' p p' with
  | here hold hnew =>
      exact ⟨⟨p, .here (List.mem_map_of_mem (List.mem_of_getElem? hold))⟩,
        ⟨p', .here (List.mem_map_of_mem (List.mem_of_getElem? hnew))⟩⟩
  | inside hold hnew _ hq hq' _ ih =>
      obtain ⟨own, hown, -⟩ := hholds.of_mem (List.mem_map_of_mem (List.mem_of_getElem? hold))
      obtain ⟨own', hown', -⟩ := hholds'.of_mem (List.mem_map_of_mem (List.mem_of_getElem? hnew))
      obtain ⟨_, hinner, -, hpaired⟩ := hown.of_part (List.mem_of_getElem? hq)
      obtain ⟨_, hinner', -, hpaired'⟩ := hown'.of_part (List.mem_of_getElem? hq')
      have hboth := fun p p' => ih (hpaired.map_snd.symm ▸ hinner) (hpaired'.map_snd.symm ▸ hinner') p p'
      exact ⟨hpart (List.mem_of_getElem? hold) (List.mem_of_getElem? hq) hpaired fun m => (hboth m m).1,
        hpart (List.mem_of_getElem? hnew) (List.mem_of_getElem? hq') hpaired' fun m => (hboth m m).2⟩
  | component hold hnew hpresent hdeveloped hpresent' hdeveloped' _ ih =>
      obtain ⟨own, hown, -⟩ := hholds.of_mem (List.mem_map_of_mem (List.mem_of_getElem? hold))
      obtain ⟨own', hown', -⟩ := hholds'.of_mem (List.mem_map_of_mem (List.mem_of_getElem? hnew))
      obtain ⟨j, r, inner, rfl, hj, hr, hpaired, -, hinner⟩ := hown.of_component
      obtain ⟨j', r', inner', rfl, hj', hr', hpaired', -, hinner'⟩ := hown'.of_component
      cases hpresent.symm.trans hj
      cases hdeveloped.symm.trans hr
      cases hpresent'.symm.trans hj'
      cases hdeveloped'.symm.trans hr'
      obtain ⟨⟨m, hm⟩, ⟨m', hm'⟩⟩ := ih (hpaired.map_snd.symm ▸ hinner) (hpaired'.map_snd.symm ▸ hinner') p p'
      exact ⟨⟨m, .component (List.mem_map_of_mem (List.mem_of_getElem? hold)) hpresent hdeveloped
          (hpaired.map_snd ▸ hm)⟩,
        ⟨m', .component (List.mem_map_of_mem (List.mem_of_getElem? hnew)) hpresent' hdeveloped'
          (hpaired'.map_snd ▸ hm')⟩⟩

end Counterpart

namespace Patched

variable {t t' t₁ t₁' : Array Instance} {e : Engine} {ws ws' : List (Lexem × Slot)} {w w' : Lexem × Slot}
variable {cs cs' : List InstanceId}

theorem congr (h : Patched t t' e ws ws') (hholds : Holds t (ws.map (·.2)) cs) (hagree : ∀ id ∈ cs, Agree t t₁ id)
    (hholds' : Holds t' (ws'.map (·.2)) cs') (hagree' : ∀ id ∈ cs', Agree t' t₁' id) : Patched t₁ t₁' e ws ws' := by
  intro e₁ w w' hfacing hretains
  have hback : ∀ id ∈ cs, Agree t₁ t id := fun id hid => Eq.symm (hagree id hid)
  have hback' : ∀ id ∈ cs', Agree t₁' t' id := fun id hid => Eq.symm (hagree' id hid)
  obtain ⟨hfacing₁, hanchors, hanchors'⟩ := hfacing.congr (hholds.congr hagree) hback (hholds'.congr hagree') hback'
  obtain ⟨hsame, hcomponent⟩ := h e₁ w w' hfacing₁ hretains
  exact ⟨by rw [← hanchors, ← hanchors', hsame], hcomponent⟩

/-- Outputs that have stayed as they were. -/
theorem same (hholds : Holds t (ws.map (·.2)) cs) (hagree : ∀ id ∈ cs, Agree t t' id) : Patched t t' e ws ws := by
  intro e₁ w w' hfacing _
  obtain ⟨rfl, hanchors⟩ := hfacing.same rfl hholds hagree
  exact ⟨hanchors, rfl⟩

/-- One word by another, by what it has of its own and by what is inside. -/
theorem one (hremains : e.Retains w'.1 w.1 → w.2.Remains t t' w'.2)
    (hparts : e.Retains w'.1 w.1 → ∀ (j : Nat) (q q' : Rendered), w.2.parts[j]? = some q → w'.2.parts[j]? = some q' →
      Patched t t' e q.pairs q'.pairs)
    (houtput : ∀ {id id' i i' q q'}, w.2 = .component id → w'.2 = .component id' → t[id.index]? = some i →
      i.developed = some q → t'[id'.index]? = some i' → i'.developed = some q' →
        Patched t t' i.engine q.pairs q'.pairs) : Patched t t' e [w] [w'] := by
  intro e₁ v v' hfacing hretains
  have hfirst : ∀ {u v : Lexem × Slot} {k : Nat}, [u][k]? = some v → v = u := fun h =>
    List.mem_singleton.mp (List.mem_of_getElem? h)
  cases hfacing with
  | here hold hnew =>
      obtain rfl := hfirst hold
      obtain rfl := hfirst hnew
      exact hremains hretains
  | inside hold hnew houter hq hq' hinner =>
      obtain rfl := hfirst hold
      obtain rfl := hfirst hnew
      exact hparts houter _ _ _ hq hq' e₁ v v' hinner hretains
  | component hold hnew hpresent hdeveloped hpresent' hdeveloped' hinner =>
      obtain rfl := hfirst hold
      obtain rfl := hfirst hnew
      exact houtput rfl rfl hpresent hdeveloped hpresent' hdeveloped' e₁ v v' hinner hretains

theorem cons (h : Patched t t' e [w] [w']) (h' : Patched t t' e ws ws') : Patched t t' e (w :: ws) (w' :: ws') := by
  intro e₁ v v' hfacing hretains
  cases hfacing with
  | @here _ _ _ _ _ k hold hnew =>
      cases k with
      | zero => exact h _ _ _ (.here (k := 0) hold hnew) hretains
      | succ k => exact h' _ _ _ (.here hold hnew) hretains
  | @inside _ _ _ _ _ _ _ _ _ _ k j hold hnew houter hq hq' hinner =>
      cases k with
      | zero => exact h _ _ _ (.inside (k := 0) hold hnew houter hq hq' hinner) hretains
      | succ k => exact h' _ _ _ (.inside hold hnew houter hq hq' hinner) hretains
  | @component _ _ _ _ _ _ _ _ _ _ _ _ _ _ k hold hnew hpresent hdeveloped hpresent' hdeveloped' hinner =>
      cases k with
      | zero => exact h _ _ _ (.component (k := 0) hold hnew hpresent hdeveloped hpresent' hdeveloped' hinner) hretains
      | succ k => exact h' _ _ _ (.component hold hnew hpresent hdeveloped hpresent' hdeveloped' hinner) hretains

end Patched

end Parlance
