import Parlance.Engine.Remove
import Parlance.Proofs.Engine.Success
import Parlance.Proofs.Engine.Turn

/-! Removal. What is sought in slots is what they hold, in the same order; every component found is then told
twice, before and after the nodes are taken off, and is not mounted any more. -/

namespace Parlance

open Pass

/-- The lexems of outputs, one output after the other. -/
def lexemsOf (rs : List Rendered) : List Lexem := rs.flatMap (·.sentence.lexems)

@[simp] theorem lexemsOf_cons (r : Rendered) (rs : List Rendered) :
    lexemsOf (r :: rs) = r.sentence.lexems ++ lexemsOf rs := rfl

@[simp] theorem lexemsOf_nil : lexemsOf [] = [] := rfl

@[simp] theorem lexemsOf_append (rs rs' : List Rendered) : lexemsOf (rs ++ rs') = lexemsOf rs ++ lexemsOf rs' :=
  List.flatMap_append

theorem length_lexemsOf {rs : List Rendered} (h : ∀ r ∈ rs, r.Paired) :
    (lexemsOf rs).length = (slotsOf rs).length := by
  induction rs with
  | nil => rfl
  | cons r rs ih =>
      have hr : r.slots.length = r.sentence.lexems.length := h r List.mem_cons_self
      rw [lexemsOf_cons, slotsOf_cons, List.length_append, List.length_append, hr,
        ih fun r' hr' => h r' (List.mem_cons_of_mem _ hr')]

variable {ω : Type} (b : Behaviour ω)

/-- Hooks are told that they are removed, and nothing else happens. -/
inductive Unhooking : Stage ω → Stage ω → Prop
  | refl {σ : Stage ω} : Unhooking σ σ
  | step {hook : Identity} {node : NodeId} {args : List Arg} {h : Host} {w : ω} {σ σ' : Stage ω}
      (hcall : b.hookRemove hook node args σ.host σ.world = .ok h w)
      (tail : Unhooking ((σ.onHost fun _ => h).inWorld w) σ') : Unhooking σ σ'

/-- The table after components have been unmounted. -/
def unmountAll (t : Array Instance) (ids : List InstanceId) : Array Instance :=
  ids.foldl (fun t id => t.modify id.index fun c => { c with developed := none, refs := [] }) t

theorem Endure.unmountAll (t : Array Instance) (ids : List InstanceId) : Endure t (unmountAll t ids) := by
  induction ids generalizing t with
  | nil => exact .refl t
  | cons id ids ih =>
      exact (Endure.modify t id.index (f := fun c => { c with developed := none, refs := [] }) fun _ => rfl).trans (ih _)

variable {b} {σ σ₁ σ' : Stage ω}

namespace Unhooking

theorem trans (h : Unhooking b σ σ₁) (h' : Unhooking b σ₁ σ') : Unhooking b σ σ' := by
  induction h with
  | refl => exact h'
  | step hcall _ ih => exact .step hcall (ih h')

theorem instances_eq (h : Unhooking b σ σ') : σ'.instances = σ.instances := by
  induction h with
  | refl => rfl
  | step _ _ ih => exact ih

theorem keeps (k : Watch b) (h : Unhooking b σ σ') : k.Keeps σ.world σ'.world := by
  induction h with
  | refl => exact Chronicle.Keeps.refl _ _
  | step hcall _ ih => exact (k.hookRemove _ _ _ _ hcall).trans ih

end Unhooking

section Seeking

variable {within : InstanceId → Pass ω (List InstanceId)}

theorem seekSlots_append {lexems lexems' : List Lexem} {slots slots' : List Slot}
    (hlength : lexems.length = slots.length) :
    seekSlots b within (lexems ++ lexems') (slots ++ slots') = (do
      let found ← seekSlots b within lexems slots
      pure (found ++ (← seekSlots b within lexems' slots'))) := by
  induction lexems generalizing slots with
  | nil =>
      cases slots with
      | nil => simp [seekSlots]
      | cons => simp at hlength
  | cons lexem lexems ih =>
      cases slots with
      | nil => simp at hlength
      | cons slot slots =>
          rw [List.length_cons, List.length_cons, Nat.add_right_cancel_iff] at hlength
          simp only [List.cons_append, seekSlots, ih hlength, bind_assoc, pure_bind, List.append_assoc]

theorem seekWith_eq (r : Rendered) :
    r.seekWith b within = seekSlots b within r.sentence.lexems r.slots := by
  cases r
  rw [Rendered.seekWith]

/-- Seeking through outputs is seeking through their slots. -/
theorem seekAll_eq {rs : List Rendered} (hpaired : ∀ r ∈ rs, r.Paired) :
    seekAll b within rs = seekSlots b within (lexemsOf rs) (slotsOf rs) := by
  induction rs with
  | nil => simp [seekAll, lexemsOf, seekSlots]
  | cons r rs ih =>
      rw [lexemsOf_cons, slotsOf_cons,
        seekSlots_append (hpaired r List.mem_cons_self).symm, seekAll,
        ih fun r' hr' => hpaired r' (List.mem_cons_of_mem _ hr'), seekWith_eq]

/-- Seeking through a slot that is no component is seeking through its parts, but for hooks. -/
theorem Slot.seek_part {slot : Slot} {lexem : Lexem} {found : List InstanceId}
    (hslot : ∀ id, slot ≠ .component id) (h : slot.seek b within lexem σ = .ok found σ') :
    seekAll b within slot.parts σ = .ok found σ' ∨
      ((∃ node, slot = .hook node) ∧ found = [] ∧ Unhooking b σ σ') := by
  cases slot with
  | component id => exact absurd rfl (hslot id)
  | hook node =>
      refine .inr ⟨⟨node, rfl⟩, ?_⟩
      cases hhook : lexem.hookArg with
      | error err =>
          simp only [Slot.seek, hhook, pure_eq_ok] at h
          obtain ⟨rfl, rfl⟩ := h
          exact ⟨rfl, .refl⟩
      | ok hook =>
          simp only [Slot.seek, hhook, bind_eq_ok, actOnHost_eq_ok, pure_eq_ok] at h
          obtain ⟨_, _, ⟨h', w, hcall, rfl⟩, rfl, rfl⟩ := h
          exact ⟨rfl, .step hcall .refl⟩
  | element _ kids => exact .inl h
  | each _ items => exact .inl h
  | branch _ developed =>
      cases developed with
      | none => exact .inl h
      | some r => exact .inl (by simpa [Slot.parts, seekAll, Slot.seek, seekOption] using h)
  | compound r => exact .inl (by simpa [Slot.parts, seekAll, Slot.seek] using h)
  | _ => exact .inl h

end Seeking

/-- What is sought in slots is what they hold, innermost first. The depth is large enough because components
inside a component come later in the table. -/
theorem seekSlots_ok {slots : List Slot} {cs : List InstanceId} (hholds : Holds σ.instances slots cs) :
    ∀ {σ₀ σ' : Stage ω} {depth : Nat} {lexems : List Lexem} {found : List InstanceId},
      σ₀.instances = σ.instances → lexems.length = slots.length →
      (∀ id ∈ cs, σ.instances.size ≤ depth + id.index) →
      seekSlots b (seekComponent b depth) lexems slots σ₀ = .ok found σ' →
      found = cs ∧ Unhooking b σ₀ σ' := by
  generalize hsame : σ.instances = t at hholds
  induction hholds with
  | nil =>
      intro σ₀ σ' depth lexems found htable hlength hdepth h
      rw [List.length_nil, List.length_eq_zero_iff] at hlength
      subst hlength
      obtain ⟨rfl, rfl⟩ := pure_eq_ok.mp h
      exact ⟨rfl, .refl⟩
  | @part slot slots inner outer hslot hpaired hinner _ ihinner ihouter =>
      intro σ₀ σ' depth lexems found htable hlength hdepth h
      obtain ⟨lexem, lexems, rfl⟩ := List.exists_cons_of_length_eq_add_one hlength
      simp only [seekSlots, bind_eq_ok, pure_eq_ok] at h
      obtain ⟨own, σ₁, hown, rest, σ₂, hrest, rfl, rfl⟩ := h
      have hstep : own = inner ∧ Unhooking b σ₀ σ₁ := by
        rcases Slot.seek_part hslot hown with hparts | ⟨⟨node, rfl⟩, rfl, hunhooking⟩
        · rw [seekAll_eq hpaired] at hparts
          exact ihinner htable (length_lexemsOf hpaired) (fun id hid => hdepth id (by simp [hid])) hparts
        · cases hinner
          exact ⟨rfl, hunhooking⟩
      obtain ⟨rfl, hunhooking⟩ := hstep
      obtain ⟨rfl, hunhooking'⟩ := ihouter (hunhooking.instances_eq.trans htable) (by simpa using hlength)
        (fun id hid => hdepth id (by simp [hid])) hrest
      exact ⟨rfl, hunhooking.trans hunhooking'⟩
  | @component id i r slots inner outer hpresent hdeveloped hpaired hlater hinner _ ihinner ihouter =>
      intro σ₀ σ' depth lexems found htable hlength hdepth h
      obtain ⟨lexem, lexems, rfl⟩ := List.exists_cons_of_length_eq_add_one hlength
      simp only [seekSlots, bind_eq_ok, pure_eq_ok] at h
      obtain ⟨own, σ₁, hown, rest, σ₂, hrest, rfl, rfl⟩ := h
      have hlt := (Array.getElem?_eq_some_iff.mp hpresent).1
      have hstep : own = inner ++ [id] ∧ Unhooking b σ₀ σ₁ := by
        cases depth with
        | zero => exact absurd (hdepth id (by simp)) (by omega)
        | succ depth =>
            simp only [Slot.seek, seekComponent, bind_eq_ok, instances_eq_ok] at hown
            obtain ⟨_, _, ⟨rfl, rfl⟩, hown⟩ := hown
            rw [htable, hpresent] at hown
            simp only [hdeveloped, bind_eq_ok, pure_eq_ok] at hown
            obtain ⟨mine, σ₃, hmine, rfl, rfl⟩ := hown
            rw [seekWith_eq] at hmine
            have hdepth' : ∀ child ∈ inner, t.size ≤ depth + child.index := by
              intro child hchild
              have hchild := hlater child hchild
              have hid := hdepth id (by simp)
              omega
            obtain ⟨rfl, hunhooking⟩ := ihinner htable hpaired.symm hdepth' hmine
            exact ⟨rfl, hunhooking⟩
      obtain ⟨rfl, hunhooking⟩ := hstep
      obtain ⟨rfl, hunhooking'⟩ := ihouter (hunhooking.instances_eq.trans htable) (by simpa using hlength)
        (fun child hchild => hdepth child (by simp [hchild])) hrest
      exact ⟨by simp, hunhooking.trans hunhooking'⟩

section Bare

variable {within : InstanceId → Pass ω (List InstanceId)}

mutual

/-- Where no hook and no component stands, nothing is found and nobody is told. -/
theorem Slot.seek_bare (lexem : Lexem) : ∀ slot : Slot, Bare [slot] → slot.seek b within lexem = pure []
  | .element _ children, h => seekAll_bare children h.inside
  | .branch _ none, _ => rfl
  | .branch _ (some developed), h => seekWith_bare developed (h.inside developed (by simp [Slot.parts]))
  | .each _ items, h => seekAll_bare items h.inside
  | .hook _, h => absurd h Bare.not_hook
  | .component _, h => absurd h Bare.not_component
  | .compound developed, h => seekWith_bare developed (h.inside developed (by simp [Slot.parts]))
  | .attribute, _ | .text _, _ | .listener _, _ | .raw _ _, _ | .skipped, _ | .effect, _ => rfl

theorem seekWith_bare : ∀ r : Rendered, Bare r.slots → r.seekWith b within = pure []
  | ⟨_, sentence, slots⟩, h => seekSlots_bare sentence.lexems slots h

theorem seekSlots_bare : ∀ (lexems : List Lexem) (slots : List Slot), Bare slots →
    seekSlots b within lexems slots = pure []
  | lexem :: lexems, slot :: slots, h => by
      rw [seekSlots, Slot.seek_bare lexem slot h.first.1, pure_bind, seekSlots_bare lexems slots h.first.2, pure_bind]
      rfl
  | [], _, _ => by simp only [seekSlots]
  | _ :: _, [], _ => by simp only [seekSlots]

theorem seekAll_bare : ∀ rs : List Rendered, (∀ r ∈ rs, Bare r.slots) → seekAll b within rs = pure []
  | [], _ => rfl
  | r :: rs, h => by
      rw [seekAll, seekWith_bare r (h r List.mem_cons_self), pure_bind,
        seekAll_bare rs fun r hr => h r (List.mem_cons_of_mem _ hr), pure_bind]
      rfl

end

end Bare

theorem told_of_sweep {l : Lifecycle} {ids : List InstanceId}
    (h : Sweep (fun id => act (b.lifecycle id l)) ids σ σ') :
    ∃ w, Told b l ids σ.world w ∧ σ' = σ.inWorld w := by
  induction h with
  | nil => exact ⟨_, .nil, rfl⟩
  | cons head _ ih =>
      obtain ⟨w₁, hcall, rfl⟩ := act_eq_ok.mp head
      obtain ⟨w, htold, rfl⟩ := ih
      exact ⟨w, .cons hcall htold, rfl⟩

/-- What unmounting does: the components found are told, the host is changed, and they are told again. -/
theorem unmounting_ok {found : List InstanceId} {detach : Array Instance → Host → Host}
    (h : unmounting b found detach σ = .ok () σ') :
    ∃ w₁ w₂, Told b .willUnmount found σ.world w₁ ∧ Told b .didUnmount found w₁ w₂ ∧
      σ' = ⟨detach σ.instances σ.host, unmountAll σ.instances found, w₂⟩ := by
  have hdid : ∀ {found : List InstanceId} {σ σ' : Stage ω},
      Sweep (fun id => do
        act (b.lifecycle id .didUnmount)
        editInstance id fun c => { c with developed := none, refs := [] }) found σ σ' →
      ∃ w, Told b .didUnmount found σ.world w ∧ σ' = ⟨σ.host, unmountAll σ.instances found, w⟩ := by
    intro found σ σ' h
    induction h with
    | nil => exact ⟨_, .nil, rfl⟩
    | cons head _ ih =>
        simp only [bind_eq_ok, act_eq_ok, editInstance_eq_ok] at head
        obtain ⟨_, _, ⟨w₁, hcall, rfl⟩, rfl⟩ := head
        obtain ⟨w, htold, rfl⟩ := ih
        exact ⟨w, .cons hcall htold, rfl⟩
  simp only [unmounting, bind_eq_ok, instances_eq_ok, edit_eq_ok] at h
  obtain ⟨_, _, hfirst, _, _, ⟨rfl, rfl⟩, _, _, rfl, hsecond⟩ := h
  obtain ⟨w₁, htold₁, rfl⟩ := told_of_sweep (forM_eq_ok.mp hfirst)
  obtain ⟨w₂, htold₂, rfl⟩ := hdid (forM_eq_ok.mp hsecond)
  exact ⟨w₁, w₂, htold₁, htold₂, rfl⟩

theorem unmounting_nil {detach : Array Instance → Host → Host} (h : unmounting b [] detach σ = .ok () σ') :
    σ' = σ.onHost (detach σ.instances) := by
  obtain ⟨w₁, w₂, hwill, hdid, rfl⟩ := unmounting_ok h
  cases hwill
  cases hdid
  rfl

/-- An output without hooks and components is removed from the host, and nothing else happens. -/
theorem teardown_bare {parent : NodeId} {r : Rendered} (hbare : Bare r.slots) (h : teardown b parent r σ = .ok () σ') :
    σ' = σ.onHost (r.detachWith (detachComponent σ.instances σ.instances.size) parent) := by
  simp only [teardown, seekWith_bare r hbare, pure_bind, bind_eq_ok, instances_eq_ok] at h
  obtain ⟨_, _, ⟨rfl, rfl⟩, h⟩ := h
  exact unmounting_nil h

theorem teardownSlot_bare {parent : NodeId} {lexem : Lexem} {slot : Slot} (hbare : Bare [slot])
    (h : teardownSlot b parent lexem slot σ = .ok () σ') :
    σ' = σ.onHost fun h => slot.detach (detachComponent σ.instances σ.instances.size) parent lexem h := by
  simp only [teardownSlot, Slot.seek_bare lexem slot hbare, pure_bind, bind_eq_ok, instances_eq_ok] at h
  obtain ⟨_, _, ⟨rfl, rfl⟩, h⟩ := h
  exact unmounting_nil h

/-- What removing an output does, given what it holds. -/
theorem teardown_ok {parent : NodeId} {r : Rendered} {cs : List InstanceId} (hpaired : r.Paired)
    (hholds : Holds σ.instances r.slots cs) (h : teardown b parent r σ = .ok () σ') :
    ∃ σ₁ w₁ w₂, Unhooking b σ σ₁ ∧ Told b .willUnmount cs σ₁.world w₁ ∧ Told b .didUnmount cs w₁ w₂ ∧
      σ' = ⟨r.detachWith (detachComponent σ.instances σ.instances.size) parent σ₁.host,
        unmountAll σ.instances cs, w₂⟩ := by
  simp only [teardown, bind_eq_ok, instances_eq_ok] at h
  obtain ⟨_, _, ⟨rfl, rfl⟩, found, σ₁, hfound, h⟩ := h
  rw [seekWith_eq] at hfound
  obtain ⟨rfl, hunhooking⟩ := seekSlots_ok hholds rfl hpaired.symm (by omega) hfound
  obtain ⟨w₁, w₂, htold₁, htold₂, rfl⟩ := unmounting_ok h
  rw [hunhooking.instances_eq]
  exact ⟨σ₁, w₁, w₂, hunhooking, htold₁, htold₂, rfl⟩

/-- The same for a single slot. -/
theorem teardownSlot_ok {parent : NodeId} {lexem : Lexem} {slot : Slot} {cs : List InstanceId}
    (hholds : Holds σ.instances [slot] cs) (h : teardownSlot b parent lexem slot σ = .ok () σ') :
    ∃ σ₁ w₁ w₂, Unhooking b σ σ₁ ∧ Told b .willUnmount cs σ₁.world w₁ ∧ Told b .didUnmount cs w₁ w₂ ∧
      σ' = ⟨slot.detach (detachComponent σ.instances σ.instances.size) parent lexem σ₁.host,
        unmountAll σ.instances cs, w₂⟩ := by
  simp only [teardownSlot, bind_eq_ok, instances_eq_ok] at h
  obtain ⟨_, _, ⟨rfl, rfl⟩, found, σ₁, hfound, h⟩ := h
  have hslots : seekSlots b (seekComponent b σ.instances.size) [lexem] [slot] σ = .ok found σ₁ := by
    simp only [seekSlots, bind_eq_ok, pure_eq_ok]
    exact ⟨found, σ₁, hfound, [], σ₁, ⟨rfl, rfl⟩, List.append_nil _, rfl⟩
  obtain ⟨rfl, hunhooking⟩ := seekSlots_ok hholds rfl rfl (by omega) hslots
  obtain ⟨w₁, w₂, htold₁, htold₂, rfl⟩ := unmounting_ok h
  rw [hunhooking.instances_eq]
  exact ⟨σ₁, w₁, w₂, hunhooking, htold₁, htold₂, rfl⟩

namespace Told

variable {l : Lifecycle} {ids : List InstanceId} {w w' : ω}

theorem others (k : Watch b) (h : Told b l ids w w') {id : InstanceId} {p : Phase} (hid : id ∉ ids)
    (hp : k.phase w id p) : k.phase w' id p := by
  induction h with
  | nil => exact hp
  | cons head _ ih =>
      rw [List.mem_cons, not_or] at hid
      exact ih hid.2 ((k.lifecycle head).others hid.1 hp)

/-- Those that are told move on, each once. -/
theorem moves (k : Watch b) {p p' : Phase} (hmoves : p.Moves l.cue p') (h : Told b l ids w w')
    (hnodup : ids.Nodup) (hids : ∀ id ∈ ids, k.phase w id p) : ∀ id ∈ ids, k.phase w' id p' := by
  induction h with
  | nil => simp
  | @cons own ids w w₁ w' head tail ih =>
      have hheard := k.lifecycle head
      rw [List.nodup_cons] at hnodup
      have hrest : ∀ id ∈ ids, k.phase w₁ id p := fun id hid =>
        hheard.others (fun heq => hnodup.1 (heq ▸ hid)) (hids id (List.mem_cons_of_mem _ hid))
      intro id hid
      rcases List.mem_cons.mp hid with rfl | hid
      · exact tail.others k hnodup.1 (hheard.own (hids _ List.mem_cons_self) hmoves)
      · exact ih hnodup.2 hrest id hid

end Told

theorem size_unmountAll (t : Array Instance) (ids : List InstanceId) :
    (unmountAll t ids).size = t.size := by
  induction ids generalizing t with
  | nil => rfl
  | cons id ids ih => exact (ih _).trans Array.size_modify

theorem agree_modify (t : Array Instance) {id other : InstanceId} (f : Instance → Instance)
    (hne : other ≠ id) : Agree t (t.modify id.index f) other := by
  have hindex : id.index ≠ other.index := fun heq => hne (by cases id; cases other; exact congrArg _ heq.symm)
  rw [Agree, Array.getElem?_modify, if_neg hindex]

theorem agree_unmountAll (t : Array Instance) {ids : List InstanceId} {id : InstanceId} (hid : id ∉ ids) :
    Agree t (unmountAll t ids) id := by
  induction ids generalizing t with
  | nil => exact .refl t id
  | cons own ids ih =>
      rw [List.mem_cons, not_or] at hid
      exact (agree_modify t _ hid.1).trans (ih _ hid.2)

theorem vacant_unmountAll (t : Array Instance) {ids : List InstanceId} {id : InstanceId} (hid : id ∈ ids) :
    Vacant (unmountAll t ids) id := by
  have hmodify : ∀ t : Array Instance,
      Vacant (t.modify id.index fun c => { c with developed := none, refs := [] }) id := by
    intro t i hpresent
    rw [Array.getElem?_modify, if_pos rfl, Option.map_eq_some_iff] at hpresent
    obtain ⟨_, -, rfl⟩ := hpresent
    rfl
  induction ids generalizing t with
  | nil => simp at hid
  | cons own ids ih =>
      by_cases hrest : id ∈ ids
      · exact ih _ hrest
      · obtain rfl : id = own := (List.mem_cons.mp hid).resolve_right hrest
        exact (agree_unmountAll _ hrest).vacant (hmodify t)

/-- A removal in one go exchanges what was mounted for nothing. -/
theorem exchange_of_removal (k : Watch b) {cs : List InstanceId} {h : Host} {w₁ w₂ : ω}
    (hbound : ∀ id ∈ cs, id.index < σ.instances.size) (hmounted : Mounted k.toChronicle σ cs)
    (hunhooking : Unhooking b σ σ₁) (hwill : Told b .willUnmount cs σ₁.world w₁) (hdid : Told b .didUnmount cs w₁ w₂) :
    Exchange k.toChronicle σ cs ⟨h, unmountAll σ.instances cs, w₂⟩ [] := by
  have hbefore := hunhooking.keeps k
  have hmounted₁ := hmounted.keep (congrArg Array.size hunhooking.instances_eq) hbefore
  have hleaving := hwill.moves k .willUnmount hmounted₁.nodup hmounted₁.live
  have hgone := hdid.moves k .didUnmount hmounted.nodup hleaving
  have hkept : ∀ id ∉ cs, ∀ p, k.phase σ.world id p → k.phase w₂ id p := fun id hid p hp =>
    hdid.others k hid (hwill.others k hid (hbefore.1 id p hp))
  refine ⟨⟨List.nodup_nil, by simp, ?_⟩, Nat.le_of_eq (size_unmountAll _ _).symm, by simp, ?_, ?_, ?_, ?_⟩
  · intro id hid
    rw [size_unmountAll] at hid
    have hcs : id ∉ cs := fun hcs => absurd (hbound id hcs) (by omega)
    exact hkept id hcs _ (hmounted.unborn id hid)
  · intro id hid hlt _
    rw [size_unmountAll] at hlt
    rcases hid with hid | hid
    · exact ⟨hgone id hid, vacant_unmountAll _ hid⟩
    · omega
  · exact fun id _ hid => agree_unmountAll _ hid
  · exact fun id _ hid => hkept id hid
  · exact fun hcalm => k.removal hmounted.nodup hwill hdid (hbefore.2 hcalm)

variable (k : Watch b)

/-- Removing an output takes away all that it holds. -/
theorem teardown_renewal {parent : NodeId} {r : Rendered} (h : teardown b parent r σ = .ok () σ') :
    Renewal k.toChronicle σ [r] σ' [] := by
  refine fun hpaired => ⟨by simp, fun cs hholds hmounted => ?_⟩
  rw [slotsOf_cons, slotsOf_nil, List.append_nil] at hholds
  obtain ⟨σ₁, w₁, w₂, hunhooking, hwill, hdid, rfl⟩ :=
    teardown_ok (hpaired r List.mem_cons_self) hholds h
  exact ⟨[], .nil, exchange_of_removal k hholds.index_lt hmounted hunhooking hwill hdid⟩

theorem teardownSlot_turn {parent : NodeId} {lexem : Lexem} {slot : Slot}
    (h : teardownSlot b parent lexem slot σ = .ok () σ') : Turn k.toChronicle σ [slot] σ' [] := by
  intro cs hholds hmounted
  obtain ⟨σ₁, w₁, w₂, hunhooking, hwill, hdid, rfl⟩ := teardownSlot_ok hholds h
  exact ⟨[], .nil, exchange_of_removal k hholds.index_lt hmounted hunhooking hwill hdid⟩

theorem teardowns_renewal {parent : NodeId} {rs : List Rendered} (h : Sweep (teardown b parent) rs σ σ') :
    Renewal k.toChronicle σ rs σ' [] := by
  induction h with
  | nil => exact .refl
  | cons head _ ih => exact ((teardown_renewal k head).append_right _).trans ih

/-- Removing what is left over after other outputs. -/
theorem leftovers_renewal {parent : NodeId} {rs rest : List Rendered}
    (h : Sweep (teardown b parent) rest σ σ') : Renewal k.toChronicle σ (rs ++ rest) σ' rs := by
  have hrenewal := (teardowns_renewal k h).append_left rs
  rwa [List.append_nil] at hrenewal

end Parlance
