import Parlance.Proofs.Engine.Inscribing
import Parlance.Proofs.Engine.Shift

/-! Removing an output takes its block out of the children of its parent and touches no other list of
children. What the elements of the block contain goes with them and is not taken apart. -/

namespace Parlance

open Pass

variable {ω : Type} {b : Behaviour ω}

section Detaching

variable {within : InstanceId → Host → Host} {parent : NodeId}

theorem detachSlots_append {lexems lexems' : List Lexem} {slots slots' : List Slot} (h : Host)
    (hlength : lexems.length = slots.length) :
    detachSlots within parent h (lexems ++ lexems') (slots ++ slots') =
      detachSlots within parent (detachSlots within parent h lexems slots) lexems' slots' := by
  induction lexems generalizing slots h with
  | nil =>
      cases slots with
      | nil => simp [detachSlots]
      | cons => simp at hlength
  | cons lexem lexems ih =>
      cases slots with
      | nil => simp at hlength
      | cons slot slots =>
          rw [List.length_cons, List.length_cons, Nat.add_right_cancel_iff] at hlength
          simp only [List.cons_append, detachSlots, ih _ hlength]

theorem detachWith_eq (r : Rendered) (h : Host) :
    r.detachWith within parent h = detachSlots within parent h r.sentence.lexems r.slots := by
  cases r
  rw [Rendered.detachWith]

/-- Detaching outputs is detaching their slots. -/
theorem detachAll_eq {rs : List Rendered} (hpaired : ∀ r ∈ rs, r.Paired) (h : Host) :
    detachAll within parent h rs = detachSlots within parent h (lexemsOf rs) (slotsOf rs) := by
  induction rs generalizing h with
  | nil => simp [detachAll, lexemsOf, detachSlots]
  | cons r rs ih =>
      rw [lexemsOf_cons, slotsOf_cons, detachSlots_append _ (hpaired r List.mem_cons_self).symm, detachAll,
        ih fun r' hr' => hpaired r' (List.mem_cons_of_mem _ hr'), detachWith_eq]

/-- A plain slot is detached part by part, and then the nodes that end it go. -/
theorem Slot.detach_plain {slot : Slot} {lexem : Lexem} {tops : List NodeId} {h : Host} (hslot : slot.Plain)
    (hparts : Host.Takes parent tops h (detachAll within parent h slot.parts)) :
    Host.Takes parent (tops ++ slot.ends) h (slot.detach within parent lexem h) := by
  have hbare : ∀ {h' : Host}, slot.ends = [] → detachAll within parent h slot.parts = h →
      Host.SameTree h h' → Host.Takes parent (tops ++ slot.ends) h h' := by
    intro h' hends hsame hclear
    rw [hends]
    rw [hsame] at hparts
    exact hparts.trans (.none hclear)
  cases slot with
  | element | component => exact hslot.elim
  | skipped | effect | hook => exact hbare rfl rfl (.refl h)
  | «attribute» => exact hbare rfl rfl (lexem.clear_inscribes parent h).tree
  | listener id => exact hbare rfl rfl (.removeListener h _ _ id)
  | text node => exact hparts.trans (.one node h)
  | branch witness developed => cases developed <;> exact hparts.trans (.one witness _)
  | each witness items => exact hparts.trans (.one witness _)
  | raw witness nodes => exact hparts.trans ((Host.Takes.all nodes h).trans (.one witness _))
  | compound r => exact hparts.trans (.none (.refl _))

end Detaching

/-- Detaching slots takes the nodes at their top out of the children of the parent that they stand under. The
table is deep enough, as it is for seeking. -/
theorem detachSlots_takes {t : Array Instance} {slots : List Slot} {cs : List InstanceId}
    (hholds : Holds t slots cs) :
    ∀ {h₀ h : Host} {p : NodeId} {tops owned : List NodeId} {depth : Nat} {lexems : List Lexem},
      Placed h₀ t p slots tops owned → lexems.length = slots.length →
      (∀ id ∈ cs, t.size ≤ depth + id.index) →
      Host.Takes p tops h (detachSlots (detachComponent t depth) p h lexems slots) := by
  induction hholds with
  | nil =>
      intro h₀ h p tops owned depth lexems hplaced hlength hdepth
      cases hplaced
      rw [List.length_nil, List.length_eq_zero_iff] at hlength
      subst hlength
      rw [detachSlots]
      exact .none (.refl h)
      all_goals simp
  | @part slot slots inner outer hslot hpaired hinner _ ihinner ihouter =>
      intro h₀ h p tops owned depth lexems hplaced hlength hdepth
      obtain ⟨lexem, lexems, rfl⟩ := List.exists_cons_of_length_eq_add_one hlength
      have hlength' : lexems.length = slots.length := by simpa using hlength
      rw [detachSlots]
      cases hplaced with
      | component => exact absurd rfl (hslot _)
      | plain hplain hplacedInner hplacedOuter =>
          have hparts := ihinner (h := h) hplacedInner (length_lexemsOf hpaired)
            (fun id hid => hdepth id (by simp [hid]))
          rw [← detachAll_eq hpaired] at hparts
          exact (Slot.detach_plain hplain hparts).trans
            (ihouter hplacedOuter hlength' fun id hid => hdepth id (by simp [hid]))
      | @element _ n _ _ _ _ _ _ _ _ _ _ hplacedOuter =>
          exact (Host.Takes.one n h).trans
            (ihouter hplacedOuter hlength' fun id hid => hdepth id (by simp [hid]))
  | @component id i r slots inner outer hpresent hdeveloped hpaired hlater hinner _ ihinner ihouter =>
      intro h₀ h p tops owned depth lexems hplaced hlength hdepth
      obtain ⟨lexem, lexems, rfl⟩ := List.exists_cons_of_length_eq_add_one hlength
      have hlength' : lexems.length = slots.length := by simpa using hlength
      have hlt := (Array.getElem?_eq_some_iff.mp hpresent).1
      rw [detachSlots]
      cases hplaced with
      | plain hplain => exact hplain.elim
      | @component _ witness _ i₁ r₁ _ tops tops' _ _ hpresent₁ hparent hwitness hdeveloped₁ hplacedInner
          hplacedOuter =>
          rw [hpresent] at hpresent₁
          cases hpresent₁
          rw [hdeveloped] at hdeveloped₁
          cases hdeveloped₁
          cases depth with
          | zero => exact absurd (hdepth id (by simp)) (by omega)
          | succ depth =>
              have hdepth' : ∀ child ∈ inner, t.size ≤ depth + child.index := by
                intro child hchild
                have hchild := hlater child hchild
                have hid := hdepth id (by simp)
                omega
              have hown : Host.Takes p (tops ++ [witness]) h
                  ((Slot.component id).detach (detachComponent t (depth + 1)) p lexem h) := by
                simp only [Slot.detach, detachComponent, hpresent, hdeveloped, hwitness, hparent]
                rw [detachWith_eq]
                exact (ihinner hplacedInner hpaired.symm hdepth').trans (.one witness _)
              have hboth := hown.trans
                (ihouter hplacedOuter hlength' fun child hchild => hdepth child (by simp [hchild]))
              rwa [List.append_assoc, List.singleton_append] at hboth

variable {T : Territory b} {p : NodeId} {aim : Aim} {before tops after owned : List NodeId}
variable {σ σ' : Stage ω}

theorem Undisturbed.unhooking (hbare : ¬ T.bare) (h : Unhooking b σ σ') : Undisturbed T σ σ' := by
  induction h with
  | refl => exact .refl _
  | step hcall _ ih => exact (Undisturbed.hooked hbare (.remove hcall)).trans ih

theorem Undisturbed.told {l : Lifecycle} {ids : List InstanceId} {w w' : ω} (h : Told b l ids w w') {σ : Stage ω}
    (hworld : σ.world = w) : Undisturbed T σ (σ.inWorld w') := by
  induction h generalizing σ with
  | nil =>
      subst hworld
      exact .refl σ
  | cons head _ ih =>
      subst hworld
      exact (Undisturbed.inWorld (.lifecycle head)).trans (ih rfl)

/-- A block whose nodes are taken leaves nothing behind. -/
theorem Block.take {h : Host} (hblock : Block T σ p before tops after owned)
    (htakes : Host.Takes p tops σ.host h) : Block T (σ.onHost fun _ => h) p before [] after [] := by
  have hcount : (σ.onHost fun _ => h).host.count = σ.host.count := htakes.count
  have hkept : ∀ ns : List NodeId, (∀ n ∈ ns, n ∉ tops) → ns.filter (· ∉ tops) = ns := fun ns hns =>
    List.filter_eq_self.mpr fun n hn => by simpa using hns n hn
  refine ⟨?_, fun n hn => ?_, List.nodup_nil, by simp, fun n hn => ?_, by simp, fun n hn => ?_⟩
  · have hchildren := htakes.children p
    rw [if_pos rfl, hblock.children, List.filter_append, List.filter_append,
      hkept before fun n hn htop => (hblock.apart n htop).1 hn,
      hkept after fun n hn htop => (hblock.apart n htop).2 hn,
      List.filter_eq_nil_iff.mpr (by simp)] at hchildren
    exact hchildren
  · rw [hcount]
    refine hblock.made n ?_
    simp only [List.mem_append, List.not_mem_nil, or_false] at hn ⊢
    grind
  · rw [List.mem_singleton.mp hn]
    have hfree := hblock.free p List.mem_cons_self
    exact ⟨by rw [hcount]; exact hfree.lt, hfree.own⟩
  · rw [hcount]
    exact hblock.sound n hn

theorem Moved.take {h : Host} (htakes : Host.Takes p tops σ.host h) :
    Moved T σ p tops owned (σ.onHost fun _ => h) [] [] where
  count := Nat.le_of_eq htakes.count.symm
  newTops n hn := by simp at hn
  newOwned n hn := by simp at hn
  children n _ hne _ := by rw [Stage.onHost_host, htakes.children, if_neg hne]
  foreign n hn := .inl hn

/-- A removal: the hooks and the components are called, and in between the block is taken away. -/
theorem Shift.removal {slots : List Slot} (hturn : Turn (blind b) σ slots σ' [])
    (hremoves : ∀ {cs}, Holds σ.instances slots cs → ∃ σ₁ h t w, Undisturbed T σ σ₁ ∧ σ' = ⟨h, t, w⟩ ∧
      Undisturbed T σ₁ (σ₁.inWorld w) ∧
      ∀ {tops owned}, Placed σ.host σ.instances p slots tops owned → Host.Takes p tops σ₁.host h) :
    Shift T p Anywhere σ slots σ' [] where
  turn := hturn
  moved {cs} before tops after owned hholds _ hplaced hblock _ := by
    obtain ⟨σ₁, h, t, w, hquiet, rfl, htold, htakes⟩ := hremoves hholds
    replace htakes := htakes hplaced
    replace hquiet := hquiet.trans htold
    have hlast : Undisturbed T ((σ₁.inWorld w).onHost fun _ => h) ⟨h, t, w⟩ := (Undisturbed.refl _).inTable t
    have hblock' := ((hblock.undisturbed hquiet).take htakes).undisturbed hlast
    exact ⟨[], [], .nil, hblock', ((Moved.of_undisturbed hquiet).trans (.take htakes)).trans
      (.of_undisturbed hlast)⟩

/-- Removing an output takes its block away. -/
theorem teardown_shift {r : Rendered} (hsuits : T.Suits r.slots) (h : teardown b p r σ = .ok () σ') :
    ShiftAll T p Anywhere σ [r] σ' [] := by
  have hrenewal := teardown_renewal (Watch.blind b) h
  refine ⟨hrenewal, fun hpaired => .removal (hrenewal hpaired).2 fun {cs} hholds => ?_⟩
  replace hpaired := hpaired r List.mem_cons_self
  rw [slotsOf_cons, slotsOf_nil, List.append_nil] at hholds ⊢
  have htakes : ∀ {h₁ : Host} {tops owned}, Placed σ.host σ.instances p r.slots tops owned →
      Host.Takes p tops h₁ (r.detachWith (detachComponent σ.instances σ.instances.size) p h₁) := by
    intro h₁ tops owned hplaced
    rw [detachWith_eq]
    exact detachSlots_takes hholds hplaced hpaired.symm fun id _ => Nat.le_add_right _ _
  by_cases hbare : T.bare
  · obtain rfl := teardown_bare (hsuits hbare) h
    exact ⟨σ, _, _, σ.world, .refl σ, rfl, .refl σ, htakes⟩
  · obtain ⟨σ₁, w₁, w₂, hunhooking, hwill, hdid, rfl⟩ := teardown_ok hpaired hholds h
    refine ⟨σ₁, _, _, w₂, .unhooking hbare hunhooking, rfl, ?_, htakes⟩
    have htold : Undisturbed T σ₁ (σ₁.inWorld w₁) := .told hwill rfl
    exact htold.trans (.told hdid rfl)

/-- So does removing a single slot. -/
theorem teardownSlot_shift {lexem : Lexem} {slot : Slot} (hsuits : T.Suits [slot])
    (h : teardownSlot b p lexem slot σ = .ok () σ') : Shift T p Anywhere σ [slot] σ' [] := by
  refine .removal (teardownSlot_turn (Watch.blind b) h) fun {cs} hholds => ?_
  have htakes : ∀ {h₁ : Host} {tops owned}, Placed σ.host σ.instances p [slot] tops owned →
      Host.Takes p tops h₁ (slot.detach (detachComponent σ.instances σ.instances.size) p lexem h₁) := by
    intro h₁ tops owned hplaced
    have hslots : Host.Takes p tops h₁
        (detachSlots (detachComponent σ.instances σ.instances.size) p h₁ [lexem] [slot]) :=
      detachSlots_takes hholds hplaced rfl fun id _ => Nat.le_add_right _ _
    rwa [detachSlots, detachSlots] at hslots
    simp
  by_cases hbare : T.bare
  · obtain rfl := teardownSlot_bare (hsuits hbare) h
    exact ⟨σ, _, _, σ.world, .refl σ, rfl, .refl σ, htakes⟩
  · obtain ⟨σ₁, w₁, w₂, hunhooking, hwill, hdid, rfl⟩ := teardownSlot_ok hholds h
    refine ⟨σ₁, _, _, w₂, .unhooking hbare hunhooking, rfl, ?_, htakes⟩
    have htold : Undisturbed T σ₁ (σ₁.inWorld w₁) := .told hwill rfl
    exact htold.trans (.told hdid rfl)

theorem teardowns_shift {rs : List Rendered} (hsuits : T.Suits (slotsOf rs))
    (h : Sweep (teardown b p) rs σ σ') : ShiftAll T p Anywhere σ rs σ' [] := by
  induction h with
  | nil => exact .refl
  | cons head _ ih => exact ((teardown_shift hsuits.left head).append_right _).trans (ih hsuits.right)

/-- Removing what is left over after other outputs. -/
theorem leftovers_shift {rs rest : List Rendered} (hsuits : T.Suits (slotsOf rest))
    (h : Sweep (teardown b p) rest σ σ') : ShiftAll T p aim σ (rs ++ rest) σ' rs := by
  have hshift : ShiftAll T p aim σ (rs ++ rest) σ' (rs ++ []) := (teardowns_shift hsuits h).append_left rs
  rwa [List.append_nil] at hshift

end Parlance
