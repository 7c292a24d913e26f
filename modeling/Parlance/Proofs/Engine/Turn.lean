import Parlance.Engine.Pass
import Parlance.Proofs.Engine.Holding

/-! What passes do to components, told from outside. A watch follows every component through the phases of
its life; a turn replaces slots by others and exchanges the components that they hold, and it leaves all
other components alone. Turns compose, one after the other and side by side. -/

namespace Parlance

/-- What a component is asked or told. -/
inductive Cue where
  | willMount
  | view
  | didMount
  | setProps
  | willUnmount
  | didUnmount
deriving DecidableEq

def Lifecycle.cue : Lifecycle → Cue
  | willMount => .willMount
  | didMount => .didMount
  | setProps _ => .setProps
  | willUnmount => .willUnmount
  | didUnmount => .didUnmount

inductive Phase where
  | unborn
  | told
  | shown
  | live
  /-- It has been given props that it has not shown yet. -/
  | asked
  | leaving
  | gone

/-- The calls that are in order, and where they lead. -/
inductive Phase.Moves : Phase → Cue → Phase → Prop
  | willMount : Moves unborn .willMount told
  | firstView : Moves told .view shown
  | didMount : Moves shown .didMount live
  | setProps : Moves live .setProps asked
  | answer : Moves asked .view live
  | view : Moves live .view live
  | willUnmount : Moves live .willUnmount leaving
  | didUnmount : Moves leaving .didUnmount gone

variable {ω : Type}

/-- Components that are told the same, one after the other. -/
inductive Told (b : Behaviour ω) (l : Lifecycle) : List InstanceId → ω → ω → Prop
  | nil {w : ω} : Told b l [] w w
  | cons {id : InstanceId} {ids : List InstanceId} {w w₁ w' : ω} (head : b.lifecycle id l w = .ok () w₁)
      (tail : Told b l ids w₁ w') : Told b l (id :: ids) w w'

/-- The phases of components as they can be read off a world, and whether every removal so far was carried
out in one go. -/
structure Chronicle (ω : Type) where
  phase : ω → InstanceId → Phase → Prop
  calm : ω → Prop

namespace Chronicle

variable (k : Chronicle ω)

/-- Nothing that a chronicle shows is lost from one world to another. -/
def Keeps (w w' : ω) : Prop := (∀ id p, k.phase w id p → k.phase w' id p) ∧ (k.calm w → k.calm w')

def Silent {α : Type} (action : Act ω α) : Prop := ∀ ⦃w x w'⦄, action w = .ok x w' → k.Keeps w w'

/-- One component has been called, and the others have not. -/
structure Heard (id : InstanceId) (cue : Cue) (w w' : ω) : Prop where
  own : ∀ {p p'}, k.phase w id p → p.Moves cue p' → k.phase w' id p'
  others : ∀ {other p}, other ≠ id → k.phase w other p → k.phase w' other p
  calm : cue ≠ .willUnmount → cue ≠ .didUnmount → k.calm w → k.calm w'

theorem Keeps.refl (w : ω) : k.Keeps w w := ⟨fun _ _ h => h, id⟩

theorem Keeps.trans {k : Chronicle ω} {w w₁ w' : ω} (h : k.Keeps w w₁) (h' : k.Keeps w₁ w') : k.Keeps w w' :=
  ⟨fun id p hp => h'.1 id p (h.1 id p hp), fun hc => h'.2 (h.2 hc)⟩

end Chronicle

/-- A chronicle that follows what components are told, and nothing else. -/
structure Watch (b : Behaviour ω) extends Chronicle ω where
  run : ∀ body init s args, toChronicle.Silent (b.run body init s args)
  render : ∀ f item index, toChronicle.Silent (b.render f item index)
  callback : ∀ f args, toChronicle.Silent (b.callback f args)
  hookRender : ∀ hook n args h, toChronicle.Silent (b.hookRender hook n args h)
  hookDiff : ∀ hook n args old h, toChronicle.Silent (b.hookDiff hook n args old h)
  hookRemove : ∀ hook n args h, toChronicle.Silent (b.hookRemove hook n args h)
  create : ∀ factory id props, toChronicle.Silent (b.create factory id props)
  view : ∀ {id w s w'}, b.view id w = .ok s w' → toChronicle.Heard id .view w w'
  lifecycle : ∀ {id l w w'}, b.lifecycle id l w = .ok () w' → toChronicle.Heard id l.cue w w'
  removal : ∀ {ids w w₁ w'}, ids.Nodup → Told b .willUnmount ids w w₁ → Told b .didUnmount ids w₁ w' →
    calm w → calm w'

/-- The watch that sees nothing. -/
def Watch.blind (b : Behaviour ω) : Watch b where
  phase _ _ _ := True
  calm _ := True
  run _ _ _ _ _ _ _ _ := ⟨fun _ _ h => h, id⟩
  render _ _ _ _ _ _ _ := ⟨fun _ _ h => h, id⟩
  callback _ _ _ _ _ _ := ⟨fun _ _ h => h, id⟩
  hookRender _ _ _ _ _ _ _ _ := ⟨fun _ _ h => h, id⟩
  hookDiff _ _ _ _ _ _ _ _ _ := ⟨fun _ _ h => h, id⟩
  hookRemove _ _ _ _ _ _ _ _ := ⟨fun _ _ h => h, id⟩
  create _ _ _ _ _ _ _ := ⟨fun _ _ h => h, id⟩
  view _ := ⟨fun _ _ => trivial, fun _ _ => trivial, fun _ _ _ => trivial⟩
  lifecycle _ := ⟨fun _ _ => trivial, fun _ _ => trivial, fun _ _ _ => trivial⟩
  removal _ _ _ _ := trivial

variable {b : Behaviour ω} (k : Chronicle ω)

/-- Components that are mounted in a stage, each once, where whoever has no place in the table yet has heard
nothing. -/
structure Mounted (σ : Stage ω) (cs : List InstanceId) : Prop where
  nodup : cs.Nodup
  live : ∀ id ∈ cs, k.phase σ.world id .live
  unborn : ∀ id : InstanceId, σ.instances.size ≤ id.index → k.phase σ.world id .unborn

/-- Some components leave, others come, and nothing happens to the rest. -/
structure Exchange (σ : Stage ω) (cs : List InstanceId) (σ' : Stage ω) (cs' : List InstanceId) : Prop where
  mounted : Mounted k σ' cs'
  grows : σ.instances.size ≤ σ'.instances.size
  source : ∀ id ∈ cs', id ∈ cs ∨ σ.instances.size ≤ id.index
  gone : ∀ id : InstanceId, id ∈ cs ∨ σ.instances.size ≤ id.index → id.index < σ'.instances.size →
    id ∉ cs' → k.phase σ'.world id .gone ∧ Vacant σ'.instances id
  agree : ∀ id : InstanceId, id.index < σ.instances.size → id ∉ cs → Agree σ.instances σ'.instances id
  kept : ∀ id : InstanceId, id.index < σ.instances.size → id ∉ cs → ∀ p, k.phase σ.world id p →
    k.phase σ'.world id p
  calm : k.calm σ.world → k.calm σ'.world

variable {k} {σ σ₁ σ' : Stage ω} {cs cs₁ cs' : List InstanceId}

namespace Mounted

theorem of_sublist (h : Mounted k σ cs) (hsub : cs'.Sublist cs) : Mounted k σ cs' :=
  ⟨h.nodup.sublist hsub, fun id hid => h.live id (hsub.subset hid), h.unborn⟩

/-- What is mounted is so in any stage with the same table that keeps the chronicle. -/
theorem keep (h : Mounted k σ cs) (hsize : σ'.instances.size = σ.instances.size)
    (hkeeps : k.Keeps σ.world σ'.world) : Mounted k σ' cs :=
  ⟨h.nodup, fun id hid => hkeeps.1 _ _ (h.live id hid),
    fun id hid => hkeeps.1 _ _ (h.unborn id (hsize ▸ hid))⟩

end Mounted

/-- Components that stand between others, where each stands once, are none of those. -/
theorem not_mem_between {before cs after : List InstanceId} (hnodup : (before ++ cs ++ after).Nodup) :
    ∀ id ∈ before ++ after, id ∉ cs := by
  intro id hid hcs
  simp only [List.nodup_append, List.mem_append] at hnodup hid
  rcases hid with hid | hid
  · exact hnodup.1.2.2 id hid id hcs rfl
  · exact hnodup.2.2 id (.inr hcs) id hid rfl

namespace Exchange

/-- Nothing has happened to components. -/
theorem keep (h : Mounted k σ cs) (hsize : σ'.instances.size = σ.instances.size)
    (hagree : ∀ id, Agree σ.instances σ'.instances id) (hkeeps : k.Keeps σ.world σ'.world) :
    Exchange k σ cs σ' cs where
  mounted := h.keep hsize hkeeps
  grows := Nat.le_of_eq hsize.symm
  source _ hid := .inl hid
  gone id hid hlt hnot := by
    rcases hid with hid | hid
    · exact absurd hid hnot
    · omega
  agree id _ _ := hagree id
  kept id _ _ p hp := hkeeps.1 id p hp
  calm := hkeeps.2

theorem trans (h : Exchange k σ cs σ₁ cs₁) (h' : Exchange k σ₁ cs₁ σ' cs') : Exchange k σ cs σ' cs' where
  mounted := h'.mounted
  grows := Nat.le_trans h.grows h'.grows
  source id hid := by
    rcases h'.source id hid with hid | hid
    · exact h.source id hid
    · exact .inr (Nat.le_trans h.grows hid)
  gone id hid hlt hnot := by
    by_cases hmid : id ∈ cs₁
    · exact h'.gone id (.inl hmid) hlt hnot
    by_cases hsize : id.index < σ₁.instances.size
    · obtain ⟨hgone, hvacant⟩ := h.gone id hid hsize hmid
      exact ⟨h'.kept id hsize hmid _ hgone, (h'.agree id hsize hmid).vacant hvacant⟩
    · exact h'.gone id (.inr (by omega)) hlt hnot
  agree id hlt hnot := by
    have hmid : id ∉ cs₁ := fun hmid => (h.source id hmid).elim hnot fun hlate => by omega
    exact (h.agree id hlt hnot).trans (h'.agree id (Nat.lt_of_lt_of_le hlt h.grows) hmid)
  kept id hlt hnot p hp := by
    have hmid : id ∉ cs₁ := fun hmid => (h.source id hmid).elim hnot fun hlate => by omega
    exact h'.kept id (Nat.lt_of_lt_of_le hlt h.grows) hmid p (h.kept id hlt hnot p hp)
  calm hcalm := h'.calm (h.calm hcalm)

/-- An exchange among components that stand between others. -/
theorem frame {before after : List InstanceId} (h : Exchange k σ cs σ' cs')
    (hmounted : Mounted k σ (before ++ cs ++ after))
    (hbound : ∀ id ∈ before ++ after, id.index < σ.instances.size) :
    Exchange k σ (before ++ cs ++ after) σ' (before ++ cs' ++ after) := by
  have hnodup := hmounted.nodup
  have hdisjoint := not_mem_between hnodup
  refine ⟨⟨?_, ?_, h.mounted.unborn⟩, h.grows, ?_, ?_, ?_, ?_, h.calm⟩
  · have hnew : ∀ id ∈ before ++ after, id ∉ cs' := by
      intro id hid hcs'
      rcases h.source id hcs' with hcs | hlate
      · exact hdisjoint id hid hcs
      · exact absurd (hbound id hid) (by omega)
    have hcs' := h.mounted.nodup
    simp only [List.nodup_append, List.mem_append] at hnodup ⊢
    refine ⟨⟨hnodup.1.1, hcs', ?_⟩, hnodup.2.1, ?_⟩
    · rintro a ha c hc rfl
      exact hnew a (List.mem_append_left _ ha) hc
    · rintro a ha c hc rfl
      rcases ha with ha | ha
      · exact hnodup.2.2 a (.inl ha) a hc rfl
      · exact hnew a (List.mem_append_right _ hc) ha
  · intro id hid
    by_cases hcs' : id ∈ cs'
    · exact h.mounted.live id hcs'
    · have hid : id ∈ before ++ after := by grind
      exact h.kept id (hbound id hid) (hdisjoint id hid) _ (hmounted.live id (by grind))
  · intro id hid
    by_cases hcs' : id ∈ cs'
    · exact (h.source id hcs').imp_left fun hcs => by simp [hcs]
    · exact .inl (by grind)
  · intro id hid hlt hnot
    exact h.gone id (by grind) hlt (by grind)
  · intro id hlt hnot
    exact h.agree id hlt (by grind)
  · intro id hlt hnot
    exact h.kept id hlt (by grind)

end Exchange

variable (k) in
/-- A stage in which slots hold mounted components is taken to one in which other slots do. -/
def Turn (σ : Stage ω) (slots : List Slot) (σ' : Stage ω) (slots' : List Slot) : Prop :=
  ∀ cs, Holds σ.instances slots cs → Mounted k σ cs →
    ∃ cs', Holds σ'.instances slots' cs' ∧ Exchange k σ cs σ' cs'

variable (k) in
/-- A turn that takes outputs with one slot for every lexem to such outputs. -/
def Renewal (σ : Stage ω) (rs : List Rendered) (σ' : Stage ω) (rs' : List Rendered) : Prop :=
  (∀ r ∈ rs, r.Paired) → (∀ r ∈ rs', r.Paired) ∧ Turn k σ (slotsOf rs) σ' (slotsOf rs')

namespace Turn

variable {slots slots₁ slots' : List Slot}

/-- A stage with the same table, or at least one that agrees about every component. -/
theorem keep (hsize : σ'.instances.size = σ.instances.size)
    (hagree : ∀ id, Agree σ.instances σ'.instances id) (hkeeps : k.Keeps σ.world σ'.world) :
    Turn k σ slots σ' slots := fun cs hholds hmounted =>
  ⟨cs, hholds.congr fun id _ => hagree id, .keep hmounted hsize hagree hkeeps⟩

theorem refl : Turn k σ slots σ slots := keep rfl (fun _ => rfl) (Chronicle.Keeps.refl k _)

theorem trans (h : Turn k σ slots σ₁ slots₁) (h' : Turn k σ₁ slots₁ σ' slots') :
    Turn k σ slots σ' slots' := by
  intro cs hholds hmounted
  obtain ⟨cs₁, hholds₁, hexchange₁⟩ := h cs hholds hmounted
  obtain ⟨cs', hholds', hexchange'⟩ := h' cs₁ hholds₁ hexchange₁.mounted
  exact ⟨cs', hholds', hexchange₁.trans hexchange'⟩

/-- A turn of slots that stand between others. -/
theorem frame (before after : List Slot) (h : Turn k σ slots σ' slots') :
    Turn k σ (before ++ slots ++ after) σ' (before ++ slots' ++ after) := by
  intro cs hholds hmounted
  obtain ⟨_, c, rfl, hac, hc⟩ := hholds.split
  obtain ⟨a, own, rfl, ha, hown⟩ := hac.split
  have hlt := hholds.index_lt
  obtain ⟨own', hown', hexchange⟩ := h own hown (hmounted.of_sublist (by simp))
  have hagree : ∀ id ∈ a ++ c, Agree σ.instances σ'.instances id := fun id hid =>
    hexchange.agree id (hlt id (by grind)) (not_mem_between hmounted.nodup id hid)
  refine ⟨a ++ own' ++ c, ?_, hexchange.frame hmounted fun id hid => hlt id (by grind)⟩
  exact ((ha.congr fun id hid => hagree id (by grind)).append hown').append
    (hc.congr fun id hid => hagree id (by grind))

theorem append_left (before : List Slot) (h : Turn k σ slots σ' slots') :
    Turn k σ (before ++ slots) σ' (before ++ slots') := by
  have hframe := h.frame before []
  rwa [List.append_nil, List.append_nil] at hframe

theorem append_right (after : List Slot) (h : Turn k σ slots σ' slots') :
    Turn k σ (slots ++ after) σ' (slots' ++ after) := h.frame [] after

/-- The components of a slot that is no component itself are those of its parts. -/
theorem part {slot slot' : Slot} (hslot : ∀ id, slot ≠ .component id) (hslot' : ∀ id, slot' ≠ .component id)
    (h : Renewal k σ slot.parts σ' slot'.parts) : Turn k σ [slot] σ' [slot'] := by
  intro cs hholds hmounted
  cases hholds with
  | component => exact absurd rfl (hslot _)
  | part _ hpaired hinner houter =>
      cases houter
      rw [List.append_nil] at hmounted ⊢
      obtain ⟨hpaired', hturn⟩ := h hpaired
      obtain ⟨cs', hholds', hexchange⟩ := hturn _ hinner hmounted
      refine ⟨cs', ?_, hexchange⟩
      rw [← cs'.append_nil]
      exact .part hslot' hpaired' hholds' .nil

/-- A new slot that is no component holds what its parts hold. -/
theorem born {slot' : Slot} (hslot' : ∀ id, slot' ≠ .component id)
    (h : Renewal k σ [] σ' slot'.parts) : Turn k σ [] σ' [slot'] := by
  intro cs hholds hmounted
  obtain ⟨hpaired', hturn⟩ := h (by simp)
  obtain ⟨cs', hholds', hexchange⟩ := hturn cs hholds hmounted
  refine ⟨cs', ?_, hexchange⟩
  rw [← cs'.append_nil]
  exact .part hslot' hpaired' hholds' .nil

end Turn

namespace Renewal

variable {rs rs₁ rs' : List Rendered}

theorem refl : Renewal k σ rs σ rs := fun h => ⟨h, .refl⟩

theorem trans (h : Renewal k σ rs σ₁ rs₁) (h' : Renewal k σ₁ rs₁ σ' rs') : Renewal k σ rs σ' rs' := by
  intro hpaired
  obtain ⟨hpaired₁, hturn₁⟩ := h hpaired
  obtain ⟨hpaired', hturn'⟩ := h' hpaired₁
  exact ⟨hpaired', hturn₁.trans hturn'⟩

theorem keep (hsize : σ'.instances.size = σ.instances.size)
    (hagree : ∀ id, Agree σ.instances σ'.instances id) (hkeeps : k.Keeps σ.world σ'.world) :
    Renewal k σ rs σ' rs := fun h => ⟨h, .keep hsize hagree hkeeps⟩

theorem frame (before after : List Rendered) (h : Renewal k σ rs σ' rs') :
    Renewal k σ (before ++ rs ++ after) σ' (before ++ rs' ++ after) := by
  intro hpaired
  obtain ⟨hpaired', hturn⟩ := h fun r hr => hpaired r (by grind)
  refine ⟨fun r hr => ?_, ?_⟩
  · by_cases hr' : r ∈ rs'
    · exact hpaired' r hr'
    · exact hpaired r (by grind)
  · simp only [slotsOf_append]
    exact hturn.frame _ _

theorem append_left (before : List Rendered) (h : Renewal k σ rs σ' rs') :
    Renewal k σ (before ++ rs) σ' (before ++ rs') := by
  have hframe := h.frame before []
  rwa [List.append_nil, List.append_nil] at hframe

theorem append_right (after : List Rendered) (h : Renewal k σ rs σ' rs') :
    Renewal k σ (rs ++ after) σ' (rs' ++ after) := h.frame [] after

end Renewal

end Parlance
