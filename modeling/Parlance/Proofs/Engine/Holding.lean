import Parlance.Engine.Rendered

/-! The components that an output holds, innermost first and otherwise in the order of the document. The
output of a component stands in the table, and what it holds are later components than itself, so this is a
relation that no cycle can satisfy. -/

namespace Parlance

/-- The outputs that a slot holds itself; that of a component stands in the table. -/
def Slot.parts : Slot → List Rendered
  | .element _ kids => kids
  | .branch _ developed => developed.toList
  | .each _ items => items
  | .compound developed => [developed]
  | _ => []

/-- One slot for every lexem. -/
def Rendered.Paired (r : Rendered) : Prop := r.slots.length = r.sentence.lexems.length

/-- The slots of outputs, one output after the other. -/
def slotsOf (rs : List Rendered) : List Slot := rs.flatMap (·.slots)

@[simp] theorem slotsOf_nil : slotsOf [] = [] := rfl

@[simp] theorem slotsOf_cons (r : Rendered) (rs : List Rendered) :
    slotsOf (r :: rs) = r.slots ++ slotsOf rs := rfl

@[simp] theorem slotsOf_append (rs rs' : List Rendered) : slotsOf (rs ++ rs') = slotsOf rs ++ slotsOf rs' :=
  List.flatMap_append

/-- What of a component matters to where it stands: all but the names of nodes. -/
def Instance.core (i : Instance) : Instance := { i with refs := [] }

/-- Two tables agree about a component, but perhaps for the names of nodes. -/
def Agree (t t' : Array Instance) (id : InstanceId) : Prop :=
  (t'[id.index]?).map Instance.core = (t[id.index]?).map Instance.core

theorem Agree.refl (t : Array Instance) (id : InstanceId) : Agree t t id := rfl

theorem Agree.trans {t t' t'' : Array Instance} {id : InstanceId} (h : Agree t t' id)
    (h' : Agree t' t'' id) : Agree t t'' id := Eq.trans h' h

theorem Agree.some {t t' : Array Instance} {id : InstanceId} {i : Instance} (h : Agree t t' id)
    (hpresent : t[id.index]? = some i) : ∃ i', t'[id.index]? = some i' ∧ i'.core = i.core := by
  rw [Agree, hpresent, Option.map_some, Option.map_eq_some_iff] at h
  exact h

theorem Instance.developed_of_core {i i' : Instance} (h : i'.core = i.core) : i'.developed = i.developed := by
  have hdeveloped := congrArg Instance.developed h
  exact hdeveloped

/-- Components that have been made are still in the table, each of its factory. -/
def Endure (t t' : Array Instance) : Prop :=
  ∀ (n : Nat) (i : Instance), t[n]? = some i → ∃ i', t'[n]? = some i' ∧ i'.factory = i.factory

namespace Endure

variable {t t₁ t' : Array Instance}

theorem refl (t : Array Instance) : Endure t t := fun _ i hi => ⟨i, hi, rfl⟩

theorem trans (h : Endure t t₁) (h' : Endure t₁ t') : Endure t t' := by
  intro n i hi
  obtain ⟨i₁, hi₁, hfactory₁⟩ := h n i hi
  obtain ⟨i', hi', hfactory'⟩ := h' n i₁ hi₁
  exact ⟨i', hi', hfactory'.trans hfactory₁⟩

theorem modify (t : Array Instance) (index : Nat) {f : Instance → Instance} (hf : ∀ i, (f i).factory = i.factory) :
    Endure t (t.modify index f) := by
  intro n i hi
  rw [Array.getElem?_modify, hi]
  split
  · exact ⟨f i, rfl, hf i⟩
  · exact ⟨i, rfl, rfl⟩

theorem push (t : Array Instance) (i : Instance) : Endure t (t.push i) := by
  intro n j hj
  exact ⟨j, by rw [Array.getElem?_push, if_neg (Nat.ne_of_lt (Array.getElem?_eq_some_iff.mp hj).1), hj], rfl⟩

theorem of_agree (hagree : ∀ id, Agree t t' id) : Endure t t' := by
  intro n i hi
  obtain ⟨i', hi', hcore⟩ := (hagree ⟨n⟩).some hi
  have hfactory := congrArg Instance.factory hcore
  exact ⟨i', hi', hfactory⟩

end Endure

/-- A component without an output. -/
def Vacant (t : Array Instance) (id : InstanceId) : Prop :=
  ∀ i, t[id.index]? = some i → i.developed = none

theorem Agree.vacant {t t' : Array Instance} {id : InstanceId} (h : Agree t t' id) (hvacant : Vacant t id) :
    Vacant t' id := by
  intro i' hpresent'
  have hback : Agree t' t id := Eq.symm h
  obtain ⟨i, hpresent, hcore⟩ := hback.some hpresent'
  exact (Instance.developed_of_core hcore).symm.trans (hvacant i hpresent)

/-- The components that slots hold in a table: those inside a component come before it. -/
inductive Holds (t : Array Instance) : List Slot → List InstanceId → Prop
  | nil : Holds t [] []
  | part {slot : Slot} {slots : List Slot} {inner outer : List InstanceId}
      (hslot : ∀ id, slot ≠ .component id) (hpaired : ∀ r ∈ slot.parts, r.Paired)
      (hinner : Holds t (slotsOf slot.parts) inner) (houter : Holds t slots outer) :
      Holds t (slot :: slots) (inner ++ outer)
  | component {id : InstanceId} {i : Instance} {r : Rendered} {slots : List Slot}
      {inner outer : List InstanceId} (hpresent : t[id.index]? = some i) (hdeveloped : i.developed = some r)
      (hpaired : r.Paired) (hlater : ∀ child ∈ inner, id.index < child.index)
      (hinner : Holds t r.slots inner) (houter : Holds t slots outer) :
      Holds t (.component id :: slots) (inner ++ id :: outer)

namespace Holds

variable {t t' : Array Instance} {slots slots' : List Slot} {cs cs' : List InstanceId}

theorem append (h : Holds t slots cs) (h' : Holds t slots' cs') : Holds t (slots ++ slots') (cs ++ cs') := by
  induction h with
  | nil => exact h'
  | part hslot hpaired hinner _ _ ih =>
      rw [List.cons_append, List.append_assoc]
      exact .part hslot hpaired hinner ih
  | component hpresent hdeveloped hpaired hlater hinner _ _ ih =>
      rw [List.cons_append, List.append_assoc]
      exact .component hpresent hdeveloped hpaired hlater hinner ih

theorem split (h : Holds t (slots ++ slots') cs) :
    ∃ a c, cs = a ++ c ∧ Holds t slots a ∧ Holds t slots' c := by
  induction slots generalizing cs with
  | nil => exact ⟨[], cs, rfl, .nil, h⟩
  | cons slot slots ih =>
      cases h with
      | part hslot hpaired hinner houter =>
          obtain ⟨a, c, rfl, ha, hc⟩ := ih houter
          exact ⟨_, c, by rw [List.append_assoc], .part hslot hpaired hinner ha, hc⟩
      | component hpresent hdeveloped hpaired hlater hinner houter =>
          obtain ⟨a, c, rfl, ha, hc⟩ := ih houter
          exact ⟨_, c, by rw [List.append_assoc, List.cons_append],
            .component hpresent hdeveloped hpaired hlater hinner ha, hc⟩

/-- What slots hold is determined by them. -/
theorem unique (h : Holds t slots cs) (h' : Holds t slots cs') : cs = cs' := by
  induction h generalizing cs' with
  | nil =>
      cases h'
      rfl
  | part hslot _ _ _ ihinner ihouter =>
      cases h' with
      | part _ _ hinner houter => rw [ihinner hinner, ihouter houter]
      | component => exact absurd rfl (hslot _)
  | component hpresent hdeveloped _ _ _ _ ihinner ihouter =>
      cases h' with
      | part hslot => exact absurd rfl (hslot _)
      | component hpresent' hdeveloped' _ _ hinner houter =>
          rw [hpresent] at hpresent'
          cases hpresent'
          rw [hdeveloped] at hdeveloped'
          cases hdeveloped'
          rw [ihinner hinner, ihouter houter]

/-- Slots hold the same in every table that agrees about what they hold. -/
theorem congr (h : Holds t slots cs) (hagree : ∀ id ∈ cs, Agree t t' id) : Holds t' slots cs := by
  induction h with
  | nil => exact .nil
  | part hslot hpaired _ _ ihinner ihouter =>
      exact .part hslot hpaired (ihinner fun id hid => hagree id (List.mem_append_left _ hid))
        (ihouter fun id hid => hagree id (List.mem_append_right _ hid))
  | component hpresent hdeveloped hpaired hlater _ _ ihinner ihouter =>
      obtain ⟨i', hpresent', hcore⟩ := (hagree _ (by simp)).some hpresent
      exact .component hpresent' ((Instance.developed_of_core hcore).trans hdeveloped) hpaired hlater
        (ihinner fun id hid => hagree id (List.mem_append_left _ hid))
        (ihouter fun id hid => hagree id (by simp [hid]))

/-- Whatever is held is in the table. -/
theorem index_lt (h : Holds t slots cs) : ∀ id ∈ cs, id.index < t.size := by
  induction h with
  | nil => simp
  | part _ _ _ _ ihinner ihouter =>
      intro id hid
      rcases List.mem_append.mp hid with hid | hid
      · exact ihinner id hid
      · exact ihouter id hid
  | component hpresent _ _ _ _ _ ihinner ihouter =>
      intro id hid
      rcases List.mem_append.mp hid with hid | hid
      · exact ihinner id hid
      rcases List.mem_cons.mp hid with rfl | hid
      · exact (Array.getElem?_eq_some_iff.mp hpresent).1
      · exact ihouter id hid

/-- What a component on its own holds: itself after all that its output holds. -/
theorem of_component {id : InstanceId} (h : Holds t [.component id] cs) :
    ∃ i r inner, cs = inner ++ [id] ∧ t[id.index]? = some i ∧ i.developed = some r ∧ r.Paired ∧
      (∀ child ∈ inner, id.index < child.index) ∧ Holds t r.slots inner := by
  cases h with
  | part hslot => exact absurd rfl (hslot id)
  | component hpresent hdeveloped hpaired hlater hinner houter =>
      cases houter
      exact ⟨_, _, _, rfl, hpresent, hdeveloped, hpaired, hlater, hinner⟩

/-- The slot of a component that is held somewhere can be given another holding, and with it everything that
it stands in; what comes in must not have been there before. -/
theorem zoom {id : InstanceId} (h : Holds t slots cs) (hid : id ∈ cs) :
    ∃ before inner after, cs = before ++ inner ++ after ∧ Holds t [.component id] inner ∧
      ∀ (t' : Array Instance) (inner' : List InstanceId), Holds t' [.component id] inner' →
        (∀ x ∈ before ++ after, Agree t t' x) → (∀ x ∈ inner', x ∈ inner ∨ t.size ≤ x.index) →
        Holds t' slots (before ++ inner' ++ after) := by
  induction h with
  | nil => simp at hid
  | @part slot slots inner outer hslot hpaired hinner houter ihinner ihouter =>
      rcases List.mem_append.mp hid with hid | hid
      · obtain ⟨before, mid, after, rfl, hmid, hreplace⟩ := ihinner hid
        refine ⟨before, mid, after ++ outer, by simp, hmid, ?_⟩
        intro t' mid' hmid' hagree hnew
        rw [← List.append_assoc]
        exact .part hslot hpaired (hreplace t' mid' hmid' (fun x hx => hagree x (by grind)) hnew)
          (houter.congr fun x hx => hagree x (by simp [hx]))
      · obtain ⟨before, mid, after, rfl, hmid, hreplace⟩ := ihouter hid
        refine ⟨inner ++ before, mid, after, by simp, hmid, ?_⟩
        intro t' mid' hmid' hagree hnew
        rw [List.append_assoc, List.append_assoc, ← List.append_assoc before]
        exact .part hslot hpaired (hinner.congr fun x hx => hagree x (by simp [hx]))
          (hreplace t' mid' hmid' (fun x hx => hagree x (by grind)) hnew)
  | @component own i r slots inner outer hpresent hdeveloped hpaired hlater hinner houter ihinner ihouter =>
      rcases List.mem_append.mp hid with hid | hid
      · obtain ⟨before, mid, after, rfl, hmid, hreplace⟩ := ihinner hid
        refine ⟨before, mid, after ++ own :: outer, by simp, hmid, ?_⟩
        intro t' mid' hmid' hagree hnew
        obtain ⟨i', hpresent', hcore⟩ := (hagree own (by simp)).some hpresent
        rw [← List.append_assoc]
        refine .component hpresent' ((Instance.developed_of_core hcore).trans hdeveloped) hpaired ?_
          (hreplace t' mid' hmid' (fun x hx => hagree x (by grind)) hnew)
          (houter.congr fun x hx => hagree x (by simp [hx]))
        intro child hchild
        have hown : own.index < t.size := (Array.getElem?_eq_some_iff.mp hpresent).1
        simp only [List.mem_append] at hchild
        rcases hchild with (hchild | hchild) | hchild
        · exact hlater child (by simp [hchild])
        · rcases hnew child hchild with hold | hlate
          · exact hlater child (by simp [hold])
          · omega
        · exact hlater child (by simp [hchild])
      rcases List.mem_cons.mp hid with rfl | hid
      · refine ⟨[], inner ++ [id], outer, by simp, ?_, ?_⟩
        · exact .component hpresent hdeveloped hpaired hlater hinner .nil
        · intro t' mid' hmid' hagree _
          exact hmid'.append (houter.congr fun x hx => hagree x (by simp [hx]))
      · obtain ⟨before, mid, after, rfl, hmid, hreplace⟩ := ihouter hid
        refine ⟨inner ++ own :: before, mid, after, by simp, hmid, ?_⟩
        intro t' mid' hmid' hagree hnew
        obtain ⟨i', hpresent', hcore⟩ := (hagree own (by simp)).some hpresent
        rw [List.append_assoc, List.append_assoc, List.cons_append, ← List.append_assoc before]
        exact .component hpresent' ((Instance.developed_of_core hcore).trans hdeveloped) hpaired hlater
          (hinner.congr fun x hx => hagree x (by simp [hx]))
          (hreplace t' mid' hmid' (fun x hx => hagree x (by grind)) hnew)

end Holds

/-- The components that can be reached from slots: those that stand among them, and those inside. -/
inductive Reachable (t : Array Instance) : List Slot → InstanceId → Prop
  | here {id : InstanceId} {slots : List Slot} (hslot : Slot.component id ∈ slots) : Reachable t slots id
  | part {slot : Slot} {slots : List Slot} {id : InstanceId} (hslot : slot ∈ slots)
      (hinner : Reachable t (slotsOf slot.parts) id) : Reachable t slots id
  | component {own id : InstanceId} {i : Instance} {r : Rendered} {slots : List Slot}
      (hslot : Slot.component own ∈ slots) (hpresent : t[own.index]? = some i)
      (hdeveloped : i.developed = some r) (hinner : Reachable t r.slots id) : Reachable t slots id

namespace Holds

variable {t : Array Instance} {slots : List Slot} {cs : List InstanceId}

theorem reachable_of_mem (h : Holds t slots cs) : ∀ id ∈ cs, Reachable t slots id := by
  have hcons : ∀ {slot : Slot} {slots : List Slot} {id : InstanceId}, Reachable t slots id →
      Reachable t (slot :: slots) id := by
    intro slot slots id h
    cases h with
    | here hslot => exact .here (List.mem_cons_of_mem _ hslot)
    | part hslot hinner => exact .part (List.mem_cons_of_mem _ hslot) hinner
    | component hslot hpresent hdeveloped hinner =>
        exact .component (List.mem_cons_of_mem _ hslot) hpresent hdeveloped hinner
  induction h with
  | nil => simp
  | part _ _ _ _ ihinner ihouter =>
      intro id hid
      rcases List.mem_append.mp hid with hid | hid
      · exact .part List.mem_cons_self (ihinner id hid)
      · exact hcons (ihouter id hid)
  | component hpresent hdeveloped _ _ _ _ ihinner ihouter =>
      intro id hid
      rcases List.mem_append.mp hid with hid | hid
      · exact .component List.mem_cons_self hpresent hdeveloped (ihinner id hid)
      rcases List.mem_cons.mp hid with rfl | hid
      · exact .here List.mem_cons_self
      · exact hcons (ihouter id hid)

/-- What a slot holds is part of what the slots hold that it stands among. -/
theorem of_mem {slot : Slot} (h : Holds t slots cs) (hslot : slot ∈ slots) :
    ∃ own, Holds t [slot] own ∧ ∀ id ∈ own, id ∈ cs := by
  obtain ⟨before, after, rfl⟩ := List.append_of_mem hslot
  rw [← List.singleton_append] at h
  obtain ⟨a, c, rfl, -, hc⟩ := h.split
  obtain ⟨own, d, rfl, hown, -⟩ := hc.split
  exact ⟨own, hown, fun id hid => by simp [hid]⟩

theorem mem_of_reachable {id : InstanceId} (hreachable : Reachable t slots id) :
    ∀ {cs}, Holds t slots cs → id ∈ cs := by
  induction hreachable with
  | here hslot =>
      intro cs h
      obtain ⟨own, hown, hsub⟩ := h.of_mem hslot
      cases hown with
      | part hslot => exact absurd rfl (hslot _)
      | component => exact hsub _ (by simp)
  | part hslot hinner ih =>
      intro cs h
      obtain ⟨own, hown, hsub⟩ := h.of_mem hslot
      cases hown with
      | part _ _ hpart _ => exact hsub _ (List.mem_append_left _ (ih hpart))
      | component => simp [Slot.parts] at hinner; cases hinner <;> contradiction
  | component hslot hpresent hdeveloped _ ih =>
      intro cs h
      obtain ⟨own, hown, hsub⟩ := h.of_mem hslot
      cases hown with
      | part hslot => exact absurd rfl (hslot _)
      | component hpresent' hdeveloped' _ _ hinner =>
          rw [hpresent] at hpresent'
          cases hpresent'
          rw [hdeveloped] at hdeveloped'
          cases hdeveloped'
          exact hsub _ (List.mem_append_left _ (ih hinner))

/-- Slots hold the components that can be reached from them. -/
theorem mem_iff_reachable {id : InstanceId} (h : Holds t slots cs) : id ∈ cs ↔ Reachable t slots id :=
  ⟨h.reachable_of_mem id, fun hreachable => mem_of_reachable hreachable h⟩

end Holds

/-- Slots in which no hook and no component stands at any depth. -/
inductive Bare : List Slot → Prop
  | nil : Bare []
  | cons {slot : Slot} {slots : List Slot} (hhook : ∀ node, slot ≠ .hook node)
      (hcomponent : ∀ id, slot ≠ .component id) (hinner : Bare (slotsOf slot.parts)) (houter : Bare slots) :
      Bare (slot :: slots)

namespace Bare

variable {slots slots' : List Slot} {slot : Slot} {rs : List Rendered}

theorem append (h : Bare slots) (h' : Bare slots') : Bare (slots ++ slots') := by
  induction h with
  | nil => exact h'
  | cons hhook hcomponent hinner _ _ ih => exact .cons hhook hcomponent hinner ih

theorem split (h : Bare (slots ++ slots')) : Bare slots ∧ Bare slots' := by
  induction slots with
  | nil => exact ⟨.nil, h⟩
  | cons slot slots ih =>
      cases h with
      | cons hhook hcomponent hinner houter =>
          obtain ⟨hslots, hslots'⟩ := ih houter
          exact ⟨.cons hhook hcomponent hinner hslots, hslots'⟩

theorem parts (h : Bare [slot]) : Bare (slotsOf slot.parts) := by
  cases h with
  | cons _ _ hinner _ => exact hinner

theorem not_component {id : InstanceId} : ¬ Bare [.component id] := by
  intro h
  cases h with
  | cons _ hcomponent => exact hcomponent id rfl

theorem not_hook {node : NodeId} : ¬ Bare [.hook node] := by
  intro h
  cases h with
  | cons hhook => exact hhook node rfl

theorem of_all (h : ∀ r ∈ rs, Bare r.slots) : Bare (slotsOf rs) := by
  induction rs with
  | nil => exact .nil
  | cons r rs ih =>
      rw [slotsOf_cons]
      exact (h r List.mem_cons_self).append (ih fun r hr => h r (List.mem_cons_of_mem _ hr))

theorem all (h : Bare (slotsOf rs)) : ∀ r ∈ rs, Bare r.slots := by
  induction rs with
  | nil => simp
  | cons r rs ih =>
      rw [slotsOf_cons] at h
      intro r' hr'
      rcases List.mem_cons.mp hr' with rfl | hr'
      · exact h.split.1
      · exact ih h.split.2 r' hr'

theorem first (h : Bare (slot :: slots)) : Bare [slot] ∧ Bare slots := by
  rw [← List.singleton_append] at h
  exact h.split

/-- A slot that is neither a hook nor a component is as bare as what is inside it. -/
theorem part (hhook : ∀ node, slot ≠ .hook node) (hcomponent : ∀ id, slot ≠ .component id)
    (hparts : ∀ r ∈ slot.parts, Bare r.slots) : Bare [slot] := .cons hhook hcomponent (.of_all hparts) .nil

theorem inside (h : Bare [slot]) : ∀ r ∈ slot.parts, Bare r.slots := h.parts.all

/-- A slot with nothing inside it. -/
theorem leaf (hhook : ∀ node, slot ≠ .hook node) (hcomponent : ∀ id, slot ≠ .component id) (hparts : slot.parts = []) :
    Bare [slot] := .part hhook hcomponent (by simp [hparts])

end Bare

end Parlance
