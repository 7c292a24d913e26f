import Parlance.Proofs.Engine.Placing

/-! Shifts: turns that keep the block of an output where it is. Like turns they compose one after the other and
side by side, and a shift inside an element, a choice or a component is one of the whole slot. Something new
can only be put where a cursor points, which is said by an aim. -/

namespace Parlance

open Pass

variable {ω : Type} {b : Behaviour ω}

/-- The chronicle that sees nothing; what is left of a turn is what happens to the table. -/
abbrev blind (b : Behaviour ω) : Chronicle ω := (Watch.blind b).toChronicle

theorem mounted_blind {σ : Stage ω} {cs : List InstanceId} (hnodup : cs.Nodup) : Mounted (blind b) σ cs :=
  ⟨hnodup, fun _ _ => trivial, fun _ _ => trivial⟩

/-- What stands before and after the place where something is put. -/
abbrev Aim := List NodeId → List NodeId → Prop

def Anywhere : Aim := fun _ _ => True

/-- Immediately before an anchor, or at the end. -/
def At (anchor : Option NodeId) : Aim := fun before after =>
  match anchor with
  | some a => a ∉ before ∧ ∃ rest, after = a :: rest
  | none => after = []

theorem At.append {anchor : Option NodeId} {before tops after : List NodeId} (h : At anchor before after)
    (hapart : ∀ n ∈ tops, n ∉ after) : At anchor (before ++ tops) after := by
  cases anchor with
  | none => exact h
  | some a =>
      obtain ⟨hbefore, rest, rfl⟩ := h
      exact ⟨by simp only [List.mem_append, not_or]
                exact ⟨hbefore, fun hmem => hapart a hmem List.mem_cons_self⟩, rest, rfl⟩

theorem putBefore_of_at {anchor : Option NodeId} {before after : List NodeId} (h : At anchor before after)
    (n : NodeId) : Host.putBefore n anchor (before ++ after) = before ++ n :: after := by
  cases anchor with
  | none =>
      obtain rfl : after = [] := h
      simp [Host.putBefore]
  | some a =>
      obtain ⟨hbefore, rest, rfl⟩ := h
      exact Host.placeBefore_between hbefore

/-- A turn that keeps the block of slots in its place. -/
structure Shift (T : Territory b) (p : NodeId) (aim : Aim) (σ : Stage ω) (slots : List Slot) (σ' : Stage ω)
    (slots' : List Slot) : Prop where
  turn : Turn (blind b) σ slots σ' slots'
  moved : ∀ {cs before tops after owned}, Holds σ.instances slots cs → cs.Nodup →
    Placed σ.host σ.instances p slots tops owned → Block T σ p before tops after owned → aim before after →
    ∃ tops' owned', Placed σ'.host σ'.instances p slots' tops' owned' ∧
      Block T σ' p before tops' after owned' ∧ Moved T σ p tops owned σ' tops' owned'

/-- A shift of outputs with one slot for every lexem. -/
structure ShiftAll (T : Territory b) (p : NodeId) (aim : Aim) (σ : Stage ω) (rs : List Rendered) (σ' : Stage ω)
    (rs' : List Rendered) : Prop where
  renewal : Renewal (blind b) σ rs σ' rs'
  shift : (∀ r ∈ rs, r.Paired) → Shift T p aim σ (slotsOf rs) σ' (slotsOf rs')

variable {T : Territory b} {p : NodeId} {aim aim' : Aim} {σ σ₁ σ' : Stage ω}

namespace Shift

variable {slots slots₁ slots' : List Slot}

theorem weaken (h : Shift T p aim' σ slots σ' slots') (haim : ∀ before after, aim before after → aim' before after) :
    Shift T p aim σ slots σ' slots' :=
  ⟨h.turn, fun hholds hnodup hplaced hblock hat => h.moved hholds hnodup hplaced hblock (haim _ _ hat)⟩

/-- Nothing has happened to any children, nor to the table but for names. -/
theorem keep (hquiet : Undisturbed T σ σ') (hsize : σ'.instances.size = σ.instances.size)
    (hagree : ∀ id, Agree σ.instances σ'.instances id) : Shift T p aim σ slots σ' slots where
  turn := .keep hsize hagree ⟨fun _ _ _ => trivial, fun _ => trivial⟩
  moved hholds _ hplaced hblock _ := by
    refine ⟨_, _, hplaced.congr hholds (fun id _ => hagree id) hquiet.count fun n hn => ?_, hblock.undisturbed hquiet,
      .of_undisturbed hquiet⟩
    exact hquiet.children n (hblock.free n (List.mem_cons_of_mem _ hn))

theorem refl : Shift T p aim σ slots σ slots := keep (.refl σ) rfl fun _ => rfl

theorem trans (h : Shift T p aim σ slots σ₁ slots₁) (h' : Shift T p aim σ₁ slots₁ σ' slots') :
    Shift T p aim σ slots σ' slots' where
  turn := h.turn.trans h'.turn
  moved {cs} before tops after owned hholds hnodup hplaced hblock hat := by
    obtain ⟨cs₁, hholds₁, hexchange⟩ := h.turn cs hholds (mounted_blind hnodup)
    obtain ⟨tops₁, owned₁, hplaced₁, hblock₁, hmoved₁⟩ := h.moved hholds hnodup hplaced hblock hat
    obtain ⟨tops', owned', hplaced', hblock', hmoved'⟩ :=
      h'.moved hholds₁ hexchange.mounted.nodup hplaced₁ hblock₁ hat
    exact ⟨tops', owned', hplaced', hblock', hmoved₁.trans hmoved'⟩

/-- A shift of slots that stand between others. -/
theorem frame_aim (left right : List Slot) (h : Shift T p aim' σ slots σ' slots')
    (haim : ∀ {before a c after oa oc}, Placed σ.host σ.instances p left a oa →
      Placed σ.host σ.instances p right c oc → (∀ n ∈ a, n ∉ c ++ after) → (∀ n ∈ c, n ∉ before ++ a) →
      aim before after → aim' (before ++ a) (c ++ after)) :
    Shift T p aim σ (left ++ slots ++ right) σ' (left ++ slots' ++ right) where
  turn := h.turn.frame left right
  moved {cs} before tops after owned hholds hnodup hplaced hblock hat := by
    obtain ⟨_, csr, rfl, hlefts, hright⟩ := hholds.split
    obtain ⟨csl, own, rfl, hleft, hown⟩ := hlefts.split
    obtain ⟨_, c, _, oc, rfl, rfl, hplacedLefts, hplacedRight⟩ := hplaced.split
    obtain ⟨a, mid, oa, om, rfl, rfl, hplacedLeft, hplacedMid⟩ := hplacedLefts.split
    have hownNodup : own.Nodup := hnodup.sublist (by simp)
    obtain ⟨own', hown', hexchange⟩ := h.turn own hown (mounted_blind hownNodup)
    have hinner := hblock.inner
    have hapart : ∀ n ∈ a, n ∉ c ++ after := by
      intro n hn hmem
      have htops := hblock.nodup
      simp only [List.nodup_append, List.mem_append] at htops hmem
      rcases hmem with hmem | hmem
      · exact htops.2.2 n (.inl hn) n hmem rfl
      · exact (hblock.apart n (by simp [hn])).2 hmem
    have hapart' : ∀ n ∈ c, n ∉ before ++ a := by
      intro n hn hmem
      rcases List.mem_append.mp hmem with hmem | hmem
      · exact (hblock.apart n (by simp [hn])).1 hmem
      · exact hapart n hmem (List.mem_append_left _ hn)
    obtain ⟨mid', om', hplaced', hblock', hmoved⟩ :=
      h.moved hown hownNodup hplacedMid hinner (haim hplacedLeft hplacedRight hapart hapart' hat)
    have hagree : ∀ id ∈ csl ++ csr, Agree σ.instances σ'.instances id := fun id hid =>
      hexchange.agree id (hholds.index_lt id (by grind)) (not_mem_between hnodup id hid)
    have hdistinct := hblock.distinct
    have hchildren : ∀ n, n ∈ oa ∨ n ∈ oc → σ'.host.children n = σ.host.children n := by
      intro n hn
      simp only [List.nodup_cons, List.nodup_append, List.mem_append] at hdistinct
      refine hmoved.children n (hblock.free n (by simp only [List.mem_cons, List.mem_append]; grind)) ?_ ?_
      · rintro rfl
        exact hdistinct.1 (by grind)
      · intro hom
        rcases hn with hn | hn
        · exact hdistinct.2.1.2.2 n hn n hom rfl
        · exact hdistinct.2.2.2 n (.inr hom) n hn rfl
    refine ⟨a ++ mid' ++ c, oa ++ om' ++ oc, ?_, hblock.outer hblock' hmoved, ?_⟩
    · exact ((hplacedLeft.congr hleft (fun id hid => hagree id (by simp [hid])) hmoved.count fun n hn =>
        hchildren n (.inl hn)).append hplaced').append
        (hplacedRight.congr hright (fun id hid => hagree id (by simp [hid])) hmoved.count fun n hn =>
          hchildren n (.inr hn))
    · refine ⟨hmoved.count, fun n hn => ?_, fun n hn => ?_, fun n hfree hne hnot => ?_, hmoved.foreign⟩
      · have hnew := hmoved.newTops n
        simp only [List.mem_append] at hn ⊢
        grind
      · have hnew := hmoved.newOwned n
        simp only [List.mem_append] at hn ⊢
        grind
      · exact hmoved.children n hfree hne fun hom => hnot (by simp [hom])

theorem frame (left right : List Slot) (h : Shift T p Anywhere σ slots σ' slots') :
    Shift T p aim σ (left ++ slots ++ right) σ' (left ++ slots' ++ right) :=
  h.frame_aim left right fun _ _ _ _ _ => trivial

/-- A shift at the end of other slots. -/
theorem append_at {anchor : Option NodeId} (left : List Slot) (h : Shift T p (At anchor) σ slots σ' slots') :
    Shift T p (At anchor) σ (left ++ slots) σ' (left ++ slots') := by
  have hframe : Shift T p (At anchor) σ (left ++ slots ++ []) σ' (left ++ slots' ++ []) :=
    h.frame_aim left [] fun _ hright hapart _ hat => by
      cases hright
      exact hat.append fun n hn => hapart n hn
  rwa [List.append_nil, List.append_nil] at hframe

theorem append_left (left : List Slot) (h : Shift T p Anywhere σ slots σ' slots') :
    Shift T p aim σ (left ++ slots) σ' (left ++ slots') := by
  have hframe : Shift T p aim σ (left ++ slots ++ []) σ' (left ++ slots' ++ []) := h.frame left []
  rwa [List.append_nil, List.append_nil] at hframe

theorem append_right (right : List Slot) (h : Shift T p Anywhere σ slots σ' slots') :
    Shift T p aim σ (slots ++ right) σ' (slots' ++ right) := h.frame [] right

end Shift

namespace ShiftAll

variable {rs rs₁ rs' : List Rendered}

theorem weaken (h : ShiftAll T p aim' σ rs σ' rs') (haim : ∀ before after, aim before after → aim' before after) :
    ShiftAll T p aim σ rs σ' rs' := ⟨h.renewal, fun hpaired => (h.shift hpaired).weaken haim⟩

/-- A shift that minds no place is one under any aim. -/
theorem aimed (h : ShiftAll T p Anywhere σ rs σ' rs') : ShiftAll T p aim σ rs σ' rs' :=
  h.weaken fun _ _ _ => trivial

theorem keep (hquiet : Undisturbed T σ σ') (hsize : σ'.instances.size = σ.instances.size)
    (hagree : ∀ id, Agree σ.instances σ'.instances id) : ShiftAll T p aim σ rs σ' rs :=
  ⟨.keep hsize hagree ⟨fun _ _ _ => trivial, fun _ => trivial⟩, fun _ => .keep hquiet hsize hagree⟩

theorem refl : ShiftAll T p aim σ rs σ rs := keep (.refl σ) rfl fun _ => rfl

theorem trans (h : ShiftAll T p aim σ rs σ₁ rs₁) (h' : ShiftAll T p aim σ₁ rs₁ σ' rs') :
    ShiftAll T p aim σ rs σ' rs' :=
  ⟨h.renewal.trans h'.renewal, fun hpaired => (h.shift hpaired).trans (h'.shift (h.renewal hpaired).1)⟩

theorem frame (left right : List Rendered) (h : ShiftAll T p Anywhere σ rs σ' rs') :
    ShiftAll T p aim σ (left ++ rs ++ right) σ' (left ++ rs' ++ right) := by
  refine ⟨h.renewal.frame left right, fun hpaired => ?_⟩
  simp only [slotsOf_append]
  exact (h.shift fun r hr => hpaired r (by simp [hr])).frame _ _

theorem append_left (left : List Rendered) (h : ShiftAll T p Anywhere σ rs σ' rs') :
    ShiftAll T p aim σ (left ++ rs) σ' (left ++ rs') := by
  refine ⟨h.renewal.append_left left, fun hpaired => ?_⟩
  simp only [slotsOf_append]
  exact (h.shift fun r hr => hpaired r (by simp [hr])).append_left _

theorem append_right (right : List Rendered) (h : ShiftAll T p Anywhere σ rs σ' rs') :
    ShiftAll T p aim σ (rs ++ right) σ' (rs' ++ right) := h.frame [] right

theorem append_at {anchor : Option NodeId} (left : List Rendered) (h : ShiftAll T p (At anchor) σ rs σ' rs') :
    ShiftAll T p (At anchor) σ (left ++ rs) σ' (left ++ rs') := by
  refine ⟨h.renewal.append_left left, fun hpaired => ?_⟩
  simp only [slotsOf_append]
  exact (h.shift fun r hr => hpaired r (by simp [hr])).append_at _

end ShiftAll

/-- A slot that is plain is no component. -/
theorem Slot.Plain.ne_component {slot : Slot} (h : slot.Plain) : ∀ id, slot ≠ .component id := by
  rintro id rfl
  exact h

section Inside

/-- A shift inside a plain slot, before the nodes that end it. -/
theorem Shift.part {slot slot' : Slot} (hslot : slot.Plain) (hslot' : slot'.Plain)
    (hends : slot'.ends = slot.ends)
    (haim : ∀ before after, aim before after → (∀ n ∈ slot.ends, n ∉ before) → aim' before (slot.ends ++ after))
    (h : ShiftAll T p aim' σ slot.parts σ' slot'.parts) : Shift T p aim σ [slot] σ' [slot'] where
  turn := .part hslot.ne_component hslot'.ne_component h.renewal
  moved {cs} before tops after owned hholds hnodup hplaced hblock hat := by
    cases hholds with
    | component => exact hslot.elim
    | part _ hpaired hinner houter =>
    cases houter
    cases hplaced with
    | element => exact hslot.elim
    | component => exact hslot.elim
    | @plain _ _ _ tops _ owned _ _ hplacedInner hplacedOuter =>
    cases hplacedOuter
    rw [List.append_nil, List.append_nil] at hblock ⊢
    have hbefore : ∀ n ∈ slot.ends, n ∉ before := fun n hn => (hblock.apart n (by simp [hn])).1
    obtain ⟨tops', owned', hplaced', hblock', hmoved⟩ := (h.shift hpaired).moved hinner (by simpa using hnodup)
      hplacedInner hblock.unended (haim before after hat hbefore)
    refine ⟨tops' ++ slot.ends, owned', ?_, hblock.ended hblock' hmoved, hmoved.ended _⟩
    have hplaced := Placed.plain hslot' hplaced' (.nil : Placed σ'.host σ'.instances p [] [] [])
    rwa [List.append_nil, List.append_nil, hends] at hplaced

/-- A shift among the children of an element, at whose end new ones may be put. -/
theorem Shift.element {n : NodeId} {kids kids' : List Rendered} (h : ShiftAll T n (At none) σ kids σ' kids') :
    Shift T p aim σ [.element n kids] σ' [.element n kids'] where
  turn := .part (by simp) (by simp) h.renewal
  moved {cs} before tops after owned hholds hnodup hplaced hblock _ := by
    cases hholds with
    | part _ hpaired hinner houter =>
    cases houter
    cases hplaced with
    | plain hslot => exact hslot.elim
    | @element _ _ _ _ kidTops _ kidOwned _ hchildren hkidsNodup hmade hplacedInner hplacedOuter =>
    cases hplacedOuter
    rw [List.append_nil] at hblock ⊢
    have hdistinct := hblock.distinct
    have hp : p ≠ n ∧ p ∉ kidOwned := by simpa using (List.nodup_cons.mp hdistinct).1
    have hblockInner : Block T σ n [] kidTops [] kidOwned :=
      ⟨by simpa using hchildren, by simpa using hmade, hkidsNodup, by simp,
        fun m hm => hblock.free m (List.mem_cons_of_mem _ hm), (List.nodup_cons.mp hdistinct).2, hblock.sound⟩
    obtain ⟨tops', owned', hplaced', hblock', hmoved⟩ := (h.shift hpaired).moved hinner (by simpa using hnodup)
      hplacedInner hblockInner rfl
    have hchildren' : σ'.host.children n = tops' := by simpa using hblock'.children
    have hmade' : ∀ m ∈ tops', m.index < σ'.host.count := by simpa using hblock'.made
    have hpFree := hblock.free p List.mem_cons_self
    refine ⟨[n], n :: owned', ?_, ?_, ?_⟩
    · have hplaced := Placed.element hchildren' hblock'.nodup hmade' hplaced'
        (.nil : Placed σ'.host σ'.instances p [] [] [])
      rwa [List.append_nil] at hplaced
    · refine ⟨(hmoved.children p hpFree hp.1 hp.2).trans hblock.children, fun m hm => ?_, hblock.nodup,
        hblock.apart, fun m hm => ?_, ?_, hblock'.sound⟩
      · exact Nat.lt_of_lt_of_le (hblock.made m hm) hmoved.count
      · rcases List.mem_cons.mp hm with rfl | hm
        · exact hmoved.free hpFree
        · exact hblock'.free m hm
      · refine List.nodup_cons.mpr ⟨fun hm => ?_, hblock'.distinct⟩
        rcases List.mem_cons.mp hm with heq | hm
        · exact hp.1 heq
        · rcases hmoved.newOwned p hm with hold | hnew
          · exact hp.2 hold
          · exact absurd hpFree.lt (Nat.not_lt.mpr hnew)
    · refine ⟨hmoved.count, fun m hm => .inl hm, fun m hm => ?_, fun m hfree _ hnot => ?_, hmoved.foreign⟩
      · rcases List.mem_cons.mp hm with rfl | hm
        · exact .inl List.mem_cons_self
        · exact (hmoved.newOwned m hm).imp_left fun hold => List.mem_cons_of_mem _ hold
      · rw [List.mem_cons, not_or] at hnot
        exact hmoved.children m hfree hnot.1 hnot.2

/-- What happens inside a component without touching the component itself. -/
theorem Turn.inside {k : Chronicle ω} {own : InstanceId} {i : Instance} {r : Rendered}
    (hpresent : σ.instances[own.index]? = some i) (hdeveloped : i.developed = some r)
    (h : Turn k σ r.slots σ' r.slots) : Turn k σ [.component own] σ' [.component own] := by
  intro cs hholds hmounted
  obtain ⟨i₁, r₁, inner, rfl, hpresent₁, hdeveloped₁, hpaired, hlater, hinner⟩ := hholds.of_component
  rw [hpresent] at hpresent₁
  cases hpresent₁
  rw [hdeveloped] at hdeveloped₁
  cases hdeveloped₁
  have hlt := (Array.getElem?_eq_some_iff.mp hpresent).1
  have hnotin : own ∉ inner := fun hmem => absurd (hlater own hmem) (Nat.lt_irrefl _)
  obtain ⟨inner', hinner', hexchange⟩ := h inner hinner (hmounted.of_sublist (List.sublist_append_left _ _))
  obtain ⟨i', hpresent', hcore⟩ := (hexchange.agree own hlt hnotin).some hpresent
  refine ⟨inner' ++ [own], .component hpresent' ((Instance.developed_of_core hcore).trans hdeveloped) hpaired
    (fun child hchild => ?_) hinner' .nil, ?_⟩
  · rcases hexchange.source child hchild with hold | hnew
    · exact hlater child hold
    · omega
  · have hmounted₁ : Mounted k σ ([] ++ inner ++ [own]) := hmounted
    have hbound : ∀ id ∈ [] ++ [own], id.index < σ.instances.size := by simpa using hlt
    exact hexchange.frame hmounted₁ hbound

/-- A shift inside a component without touching the component itself. -/
theorem Shift.inside {own : InstanceId} {i : Instance} {r : Rendered}
    (hpresent : σ.instances[own.index]? = some i) (hdeveloped : i.developed = some r)
    (h : Shift T p Anywhere σ r.slots σ' r.slots) : Shift T p aim σ [.component own] σ' [.component own] where
  turn := h.turn.inside hpresent hdeveloped
  moved {cs} before tops after owned hholds hnodup hplaced hblock _ := by
    obtain ⟨i₁, r₁, inner, rfl, hpresent₁, hdeveloped₁, -, hlater, hinner⟩ := hholds.of_component
    rw [hpresent] at hpresent₁
    cases hpresent₁
    rw [hdeveloped] at hdeveloped₁
    cases hdeveloped₁
    obtain ⟨innerTops, witness, rfl, hparent, hwitness, hplacedInner⟩ :=
      hplaced.of_component hpresent hdeveloped
    have hinnerNodup : inner.Nodup := hnodup.sublist (List.sublist_append_left _ _)
    have hlt := (Array.getElem?_eq_some_iff.mp hpresent).1
    have hnotin : own ∉ inner := fun hmem => absurd (hlater own hmem) (Nat.lt_irrefl _)
    obtain ⟨inner', hinner', hexchange⟩ := h.turn inner hinner (mounted_blind hinnerNodup)
    obtain ⟨tops', owned', hplaced', hblock', hmoved⟩ :=
      h.moved hinner hinnerNodup hplacedInner hblock.unended trivial
    obtain ⟨i', hpresent', hcore⟩ := (hexchange.agree own hlt hnotin).some hpresent
    refine ⟨tops' ++ [witness], owned', ?_, hblock.ended hblock' hmoved, hmoved.ended _⟩
    have hwhole := Placed.component hpresent' ((Placed.parent_of_core hcore).trans hparent)
      ((Placed.witness_of_core hcore).trans hwitness) ((Instance.developed_of_core hcore).trans hdeveloped)
      hplaced' .nil
    rwa [List.append_nil] at hwhole

theorem ShiftAll.of_shift {rs rs' : List Rendered} (hpaired : ∀ r ∈ rs', r.Paired)
    (h : Shift T p aim σ (slotsOf rs) σ' (slotsOf rs')) : ShiftAll T p aim σ rs σ' rs' :=
  ⟨fun _ => ⟨hpaired, h.turn⟩, fun _ => h⟩

/-- A shift of a component alone is one of all that it stands in. -/
theorem Shift.within {id : InstanceId} {slots : List Slot} {cs : List InstanceId}
    (hholds : Holds σ.instances slots cs) (hid : id ∈ cs)
    (hstep : ∀ p, Shift T p Anywhere σ [.component id] σ' [.component id]) :
    Shift T p Anywhere σ slots σ' slots := by
  induction hholds generalizing p with
  | nil => simp at hid
  | @part slot slots inner outer hslot hpaired _ _ ihinner ihouter =>
      rcases List.mem_append.mp hid with hid | hid
      · have hall : ∀ p, ShiftAll T p Anywhere σ slot.parts σ' slot.parts := fun p =>
          .of_shift hpaired (ihinner hid)
        have hslotShift : Shift T p Anywhere σ [slot] σ' [slot] := by
          cases slot with
          | element n kids => exact .element (hall n).aimed
          | component id => exact absurd rfl (hslot id)
          | _ => exact .part trivial trivial rfl (fun _ _ _ _ => trivial) (hall p)
        exact hslotShift.append_right slots
      · exact Shift.append_left [slot] (ihouter hid)
  | @component own i r slots inner outer hpresent hdeveloped _ _ _ _ ihinner ihouter =>
      rcases List.mem_append.mp hid with hid | hid
      · have hinside : Shift T p Anywhere σ [.component own] σ' [.component own] :=
          .inside hpresent hdeveloped (ihinner hid)
        exact hinside.append_right slots
      rcases List.mem_cons.mp hid with rfl | hid
      · exact (hstep p).append_right slots
      · exact Shift.append_left [.component own] (ihouter hid)

end Inside

section Putting

variable {before tops after owned : List NodeId} {anchor : Option NodeId} {f : Host → Host} {h : Host}

/-- A new node at a cursor comes to the end of the block. -/
theorem Block.put (hblock : Block T σ p before tops after owned) (hat : At anchor before after)
    (hputs : Host.Puts p anchor σ.host h) :
    Block T (σ.onHost fun _ => h) p before (tops ++ [σ.host.next]) after owned := by
  have hcount := hputs.count
  have hnew : ∀ n ∈ before ++ tops ++ after, n ≠ σ.host.next := by
    rintro n hn rfl
    exact absurd (hblock.made _ hn) (Nat.lt_irrefl _)
  have hat' : At anchor (before ++ tops) after := hat.append fun n hn => (hblock.apart n hn).2
  refine ⟨?_, fun n hn => ?_, ?_, fun n hn => ?_, fun n hn => ?_, hblock.distinct, fun n hn => ?_⟩
  · have hchildren := hputs.children p
    rw [if_pos rfl, hblock.children, putBefore_of_at hat'] at hchildren
    rw [Stage.onHost_host, hchildren]
    simp
  · rw [Stage.onHost_host, hcount]
    by_cases heq : n = σ.host.next
    · rw [heq, Host.next_index]
      exact Nat.lt_succ_self _
    · exact Nat.lt_succ_of_lt (hblock.made n (by
        simp only [List.mem_append, List.mem_singleton] at hn ⊢
        grind))
  · refine List.nodup_append.mpr ⟨hblock.nodup, by simp, ?_⟩
    rintro n hn m hm rfl
    exact hnew n (by simp [hn]) (List.mem_singleton.mp hm)
  · rcases List.mem_append.mp hn with hn | hn
    · exact hblock.apart n hn
    · rw [List.mem_singleton.mp hn]
      exact ⟨fun hmem => hnew _ (by simp [hmem]) rfl, fun hmem => hnew _ (by simp [hmem]) rfl⟩
  · have hfree := hblock.free n hn
    exact ⟨by rw [Stage.onHost_host, hcount]; exact Nat.lt_succ_of_lt hfree.lt, hfree.own⟩
  · rw [Stage.onHost_host, hcount]
    exact Nat.lt_succ_of_lt (hblock.sound n hn)

theorem Moved.put (hputs : Host.Puts p anchor σ.host h) :
    Moved T σ p tops owned (σ.onHost fun _ => h) (tops ++ [σ.host.next]) owned where
  count := by rw [Stage.onHost_host, hputs.count]; exact Nat.le_succ _
  newTops n hn := by
    rcases List.mem_append.mp hn with hn | hn
    · exact .inl hn
    · exact .inr (by rw [List.mem_singleton.mp hn]; exact Nat.le_refl _)
  newOwned n hn := .inl hn
  children n _ hne _ := by rw [Stage.onHost_host, hputs.children, if_neg hne]
  foreign n hn := .inl hn

/-- A plain slot that is new: its parts are put first, and then the nodes that end it. -/
theorem Shift.born {slot' : Slot} (hslot' : slot'.Plain) (hsame : σ'.instances = σ₁.instances)
    (h : ShiftAll T p (At anchor) σ [] σ₁ slot'.parts)
    (hends : ∀ {before tops after owned}, Block T σ₁ p before tops after owned → At anchor before after →
      Block T σ' p before (tops ++ slot'.ends) after owned ∧
        Moved T σ₁ p tops [] σ' (tops ++ slot'.ends) []) :
    Shift T p (At anchor) σ [] σ' [slot'] := by
  have hagree : ∀ id, Agree σ₁.instances σ'.instances id := fun id => by rw [Agree, hsame]
  have hsize : σ'.instances.size = σ₁.instances.size := by rw [hsame]
  refine ⟨.born hslot'.ne_component (h.renewal.trans (.keep hsize hagree ⟨fun _ _ _ => trivial, fun _ =>
    trivial⟩)), fun {cs} before tops after owned hholds hnodup hplaced hblock hat => ?_⟩
  obtain ⟨hpaired', hturn⟩ := h.renewal (by simp)
  obtain ⟨cs₁, hholds₁, -⟩ := hturn cs hholds (mounted_blind hnodup)
  obtain ⟨tops₁, owned₁, hplaced₁, hblock₁, hmoved₁⟩ :=
    (h.shift (by simp)).moved hholds hnodup hplaced hblock hat
  obtain ⟨hblock', hmoved'⟩ := hends hblock₁ hat
  have hp := (List.nodup_cons.mp hblock₁.distinct).1
  have hchildren : ∀ n ∈ owned₁, σ'.host.children n = σ₁.host.children n := fun n hn =>
    hmoved'.children n (hblock₁.free n (List.mem_cons_of_mem _ hn)) (fun heq => hp (heq ▸ hn)) (by simp)
  have hplaced' := Placed.plain hslot'
    (hplaced₁.congr hholds₁ (fun id _ => hagree id) hmoved'.count hchildren)
    (.nil : Placed σ'.host σ'.instances p [] [] [])
  rw [List.append_nil, List.append_nil] at hplaced'
  refine ⟨_, _, hplaced', hblock', hmoved₁.trans ⟨hmoved'.count, hmoved'.newTops, fun _ hn => .inl hn,
    fun n hfree hne _ => hmoved'.children n hfree hne (by simp), hmoved'.foreign⟩⟩

/-- A plain slot without nodes of its own. -/
theorem Shift.bornBare {slot' : Slot} (hslot' : slot'.Plain) (hends : slot'.ends = [])
    (h : ShiftAll T p (At anchor) σ [] σ' slot'.parts) : Shift T p (At anchor) σ [] σ' [slot'] :=
  .born hslot' rfl h fun hblock _ => by
    rw [hends, List.append_nil]
    exact ⟨hblock, .of_undisturbed (.refl _)⟩

/-- A plain slot that ends in one node. -/
theorem Shift.bornEnded {slot' : Slot} (hslot' : slot'.Plain) (hends : slot'.ends = [σ₁.host.next])
    (hputs : p.index < σ₁.host.count → Host.Puts p anchor σ₁.host (f σ₁.host))
    (h : ShiftAll T p (At anchor) σ [] σ₁ slot'.parts) : Shift T p (At anchor) σ [] (σ₁.onHost f) [slot'] := by
  have hsame : (σ₁.onHost f).instances = σ₁.instances := rfl
  refine .born hslot' hsame h fun hblock hat => ?_
  rw [hends]
  have hput := hputs (hblock.free p List.mem_cons_self).lt
  exact ⟨hblock.put hat hput, .put hput⟩

/-- A new element and what is put into it. -/
theorem Shift.bornElement {kids : List Rendered}
    (hputs : p.index < σ.host.count → Host.Puts p anchor σ.host (f σ.host))
    (h : ShiftAll T σ.host.next (At none) (σ.onHost f) [] σ' kids) :
    Shift T p (At anchor) σ [] σ' [.element σ.host.next kids] := by
  have hsame : (σ.onHost f).instances = σ.instances := rfl
  have hquiet : Renewal (blind b) σ [] (σ.onHost f) [] :=
    .keep rfl (fun _ => rfl) ⟨fun _ _ _ => trivial, fun _ => trivial⟩
  refine ⟨.born (by simp) (hquiet.trans h.renewal), ?_⟩
  intro cs before tops after owned hholds hnodup hplaced hblock hat
  cases hholds
  cases hplaced
  have hpFree := hblock.free p List.mem_cons_self
  have hput := hputs hpFree.lt
  have hblock₁ : Block T (σ.onHost f) p before ([] ++ [σ.host.next]) after [] := hblock.put hat hput
  have hmoved₁ : Moved T σ p [] [] (σ.onHost f) ([] ++ [σ.host.next]) [] := .put hput
  have hne : p ≠ σ.host.next := fun heq => by
    have hlt := hpFree.lt
    rw [heq, Host.next_index] at hlt
    exact Nat.lt_irrefl _ hlt
  have hcount : (σ.onHost f).host.count = σ.host.count + 1 := hput.count
  have hnew : Free T (σ.onHost f) σ.host.next := by
    refine ⟨by rw [hcount, Host.next_index]; exact Nat.lt_succ_self _, fun hforeign => ?_⟩
    exact absurd (hblock.sound _ hforeign) (Nat.lt_irrefl _)
  have hempty : (σ.onHost f).host.children σ.host.next = [] := by
    rw [Stage.onHost_host, hput.children, if_neg (Ne.symm hne)]
    exact Host.children_of_count_le _ (Nat.le_refl _)
  have hblockInner : Block T (σ.onHost f) σ.host.next [] [] [] [] :=
    ⟨hempty, by simp, List.nodup_nil, by simp, by simpa using hnew, by simp, hblock₁.sound⟩
  obtain ⟨tops, owned, hplaced', hblock', hmoved⟩ :=
    (h.shift (by simp)).moved .nil List.nodup_nil .nil hblockInner rfl
  have hchildren : σ'.host.children σ.host.next = tops := by simpa using hblock'.children
  have hmade : ∀ m ∈ tops, m.index < σ'.host.count := by simpa using hblock'.made
  have hpFree₁ := hblock₁.free p List.mem_cons_self
  have hpOwned : p ∉ owned := fun hmem => by
    rcases hmoved.newOwned p hmem with hold | hlate
    · simp at hold
    · exact absurd hpFree₁.lt (Nat.not_lt.mpr hlate)
  refine ⟨[σ.host.next], σ.host.next :: owned, ?_, ?_, ?_⟩
  · have hplaced := Placed.element hchildren hblock'.nodup hmade hplaced'
      (.nil : Placed σ'.host σ'.instances p [] [] [])
    rwa [List.append_nil] at hplaced
  · refine ⟨(hmoved.children p hpFree₁ hne (by simp)).trans hblock₁.children, fun m hm => ?_, hblock₁.nodup,
      hblock₁.apart, fun m hm => ?_, ?_, hblock'.sound⟩
    · exact Nat.lt_of_lt_of_le (hblock₁.made m hm) hmoved.count
    · rcases List.mem_cons.mp hm with rfl | hm
      · exact hmoved.free hpFree₁
      · exact hblock'.free m hm
    · refine List.nodup_cons.mpr ⟨fun hm => ?_, hblock'.distinct⟩
      rcases List.mem_cons.mp hm with heq | hm
      · exact hne heq
      · exact hpOwned hm
  · refine ⟨Nat.le_trans hmoved₁.count hmoved.count, fun m hm => hmoved₁.newTops m hm, fun m hm => ?_,
      fun m hfree hm _ => ?_, fun m hm => ?_⟩
    · rcases List.mem_cons.mp hm with rfl | hm
      · exact .inr (Nat.le_refl _)
      · rcases hmoved.newOwned m hm with hold | hlate
        · simp at hold
        · exact .inr (Nat.le_trans hmoved₁.count hlate)
    · have hmne : m ≠ σ.host.next := fun heq => by
        have hlt := hfree.lt
        rw [heq, Host.next_index] at hlt
        exact Nat.lt_irrefl _ hlt
      rw [hmoved.children m (hmoved₁.free hfree) hmne (by simp), hmoved₁.children m hfree hm (by simp)]
    · rcases hmoved.foreign m hm with hmid | hlate
      · exact hmoved₁.foreign m hmid
      · exact .inr (Nat.le_trans hmoved₁.count hlate)

end Putting

end Parlance
