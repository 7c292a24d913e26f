import Parlance.Proofs.Engine.Renewal
import Parlance.Proofs.Host.Children

/-! Where outputs stand. The nodes at the top of an output are children of its parent, one block of them; the
children of an element are the block of what it contains, and a component stands under the parent that it was
mounted under. A shift takes slots to others so that their block stays where it is and nothing else among
the children of any node moves. Hooks may have nodes of their own, with which they do as they like. -/

namespace Parlance

open Pass

variable {ω : Type}

/-- What a behaviour does without seeing the host. -/
inductive Behaviour.Acts (b : Behaviour ω) (w w' : ω) : Prop
  | run {body : Body} {init : Initializer} {s s' : Sentence} {args : List Arg}
      (h : b.run body init s args w = .ok s' w')
  | render {f : Identity} {item : Arg} {index : Nat} {s : Sentence} (h : b.render f item index w = .ok s w')
  | callback {f : Identity} {args : List Arg} (h : b.callback f args w = .ok () w')
  | create {factory : Factory} {id : InstanceId} {props : Arg} (h : b.create factory id props w = .ok () w')
  | view {id : InstanceId} {s : Sentence} (h : b.view id w = .ok s w')
  | lifecycle {id : InstanceId} {l : Lifecycle} (h : b.lifecycle id l w = .ok () w')

/-- What a behaviour does to a host. -/
inductive Behaviour.Hooks (b : Behaviour ω) (h : Host) (w : ω) (h' : Host) (w' : ω) : Prop
  | render {hook : Identity} {node : NodeId} {args : List Arg}
      (hcall : b.hookRender hook node args h w = .ok h' w')
  | diff {hook : Identity} {node : NodeId} {args old : List Arg}
      (hcall : b.hookDiff hook node args old h w = .ok h' w')
  | remove {hook : Identity} {node : NodeId} {args : List Arg}
      (hcall : b.hookRemove hook node args h w = .ok h' w')

/-- Nodes that belong to hooks, as they can be told from a world. Hooks leave the children of all other nodes
as they are, and the nodes that they take are nodes that they make; nothing is asked of hooks where only
outputs without any are looked at. -/
structure Territory (b : Behaviour ω) where
  bare : Prop
  foreign : ω → NodeId → Prop
  act : ∀ {w w'}, b.Acts w w' → ∀ n, foreign w' n → foreign w n
  count : ¬ bare → ∀ {h w h' w'}, b.Hooks h w h' w' → h.count ≤ h'.count
  children : ¬ bare → ∀ {h w h' w'}, b.Hooks h w h' w' → ∀ n, n.index < h.count → ¬ foreign w n →
    h'.children n = h.children n
  made : ¬ bare → ∀ {h w h' w'}, b.Hooks h w h' w' → ∀ n, foreign w' n →
    foreign w n ∨ h.count ≤ n.index ∧ n.index < h'.count

variable {b : Behaviour ω} (T : Territory b)

/-- Slots without hooks and components, where only such are looked at. -/
def Territory.Suits (slots : List Slot) : Prop := T.bare → Bare slots

/-- A node of the host that belongs to no hook. -/
structure Free (σ : Stage ω) (n : NodeId) : Prop where
  lt : n.index < σ.host.count
  own : ¬ T.foreign σ.world n

/-- Nothing has happened to the children of nodes that belong to no hook. -/
structure Undisturbed (σ σ' : Stage ω) : Prop where
  count : σ.host.count ≤ σ'.host.count
  children : ∀ n, Free T σ n → σ'.host.children n = σ.host.children n
  foreign : ∀ n, T.foreign σ'.world n → T.foreign σ.world n ∨ σ.host.count ≤ n.index ∧ n.index < σ'.host.count

variable {T} {σ σ₁ σ' : Stage ω}

namespace Territory.Suits

variable {slots slots' : List Slot} {slot : Slot}

theorem left (h : T.Suits (slots ++ slots')) : T.Suits slots := fun hbare => (h hbare).split.1

theorem right (h : T.Suits (slots ++ slots')) : T.Suits slots' := fun hbare => (h hbare).split.2

theorem parts (h : T.Suits [slot]) : T.Suits (slotsOf slot.parts) := fun hbare => (h hbare).parts

theorem hook {node : NodeId} (h : T.Suits [.hook node]) : ¬ T.bare := fun hbare => Bare.not_hook (h hbare)

theorem component {id : InstanceId} (h : T.Suits [.component id]) : ¬ T.bare := fun hbare =>
  Bare.not_component (h hbare)

end Territory.Suits

namespace Undisturbed

theorem refl (σ : Stage ω) : Undisturbed T σ σ := ⟨Nat.le_refl _, fun _ _ => rfl, fun _ h => .inl h⟩

theorem free (h : Undisturbed T σ σ') {n : NodeId} (hn : Free T σ n) : Free T σ' n := by
  refine ⟨Nat.lt_of_lt_of_le hn.lt h.count, fun hforeign => ?_⟩
  rcases h.foreign n hforeign with hold | hnew
  · exact hn.own hold
  · exact absurd hn.lt (Nat.not_lt.mpr hnew.1)

theorem trans (h : Undisturbed T σ σ₁) (h' : Undisturbed T σ₁ σ') : Undisturbed T σ σ' := by
  refine ⟨Nat.le_trans h.count h'.count, fun n hn => ?_, fun n hforeign => ?_⟩
  · rw [h'.children n (h.free hn), h.children n hn]
  · have hcount := h.count
    have hcount' := h'.count
    rcases h'.foreign n hforeign with hmid | hnew
    · rcases h.foreign n hmid with hold | hnew
      · exact .inl hold
      · exact .inr ⟨hnew.1, by omega⟩
    · exact .inr ⟨by omega, hnew.2⟩

theorem onHost {f : Host → Host} (h : Host.SameTree σ.host (f σ.host)) : Undisturbed T σ (σ.onHost f) :=
  ⟨Nat.le_of_eq h.count.symm, fun n _ => h.children n, fun _ hforeign => .inl hforeign⟩

theorem inWorld {w : ω} (h : b.Acts σ.world w) : Undisturbed T σ (σ.inWorld w) :=
  ⟨Nat.le_refl _, fun _ _ => rfl, fun n hforeign => .inl (T.act h n hforeign)⟩

theorem hooked {h : Host} {w : ω} (hbare : ¬ T.bare) (hcall : b.Hooks σ.host σ.world h w) :
    Undisturbed T σ ((σ.onHost fun _ => h).inWorld w) :=
  ⟨T.count hbare hcall, fun n hn => T.children hbare hcall n hn.lt hn.own, T.made hbare hcall⟩

/-- The table of components is of no account. -/
theorem inTable (h : Undisturbed T σ σ') (t : Array Instance) : Undisturbed T σ ⟨σ'.host, t, σ'.world⟩ :=
  ⟨h.count, h.children, h.foreign⟩

theorem evaluation {w : ω} (h : Evaluation b σ.world w) : Undisturbed T σ (σ.inWorld w) := by
  have hforeign : ∀ {w₀ w₁ : ω}, Evaluation b w₀ w₁ → ∀ n, T.foreign w₁ n → T.foreign w₀ n := by
    intro w₀ w₁ h
    induction h with
    | refl => exact fun _ h => h
    | run hrun => exact T.act (.run hrun)
    | render hrender _ ih => exact fun n hn => T.act (.render hrender) n (ih n hn)
  exact ⟨Nat.le_refl _, fun _ _ => rfl, fun n hn => .inl (hforeign h n hn)⟩

end Undisturbed

/-- Whether a slot is neither an element nor a component: its output stands at once under the parent. -/
def Slot.Plain : Slot → Prop
  | .element _ _ => False
  | .component _ => False
  | _ => True

/-- The nodes of a plain slot that stand after its parts. -/
def Slot.ends : Slot → List NodeId
  | .text node => [node]
  | .branch witness _ => [witness]
  | .each witness _ => [witness]
  | .raw witness nodes => nodes ++ [witness]
  | _ => []

/-- The nodes at the top of slots that stand under a parent, and the elements under which more of them
stands. -/
inductive Placed (h : Host) (t : Array Instance) : NodeId → List Slot → List NodeId → List NodeId → Prop
  | nil {p : NodeId} : Placed h t p [] [] []
  | plain {p : NodeId} {slot : Slot} {slots : List Slot} {tops tops' owned owned' : List NodeId}
      (hslot : slot.Plain) (hinner : Placed h t p (slotsOf slot.parts) tops owned)
      (houter : Placed h t p slots tops' owned') :
      Placed h t p (slot :: slots) (tops ++ slot.ends ++ tops') (owned ++ owned')
  | element {p n : NodeId} {kids : List Rendered} {slots : List Slot} {tops tops' owned owned' : List NodeId}
      (hchildren : h.children n = tops) (hnodup : tops.Nodup) (hmade : ∀ m ∈ tops, m.index < h.count)
      (hinner : Placed h t n (slotsOf kids) tops owned)
      (houter : Placed h t p slots tops' owned') :
      Placed h t p (.element n kids :: slots) (n :: tops') (n :: owned ++ owned')
  | component {p witness : NodeId} {id : InstanceId} {i : Instance} {r : Rendered} {slots : List Slot}
      {tops tops' owned owned' : List NodeId} (hpresent : t[id.index]? = some i) (hparent : i.parent = p)
      (hwitness : i.witness = some witness) (hdeveloped : i.developed = some r)
      (hinner : Placed h t p r.slots tops owned) (houter : Placed h t p slots tops' owned') :
      Placed h t p (.component id :: slots) (tops ++ witness :: tops') (owned ++ owned')

namespace Placed

variable {h h' : Host} {t t' : Array Instance} {p : NodeId} {slots slots' : List Slot}
variable {tops tops' owned owned' : List NodeId}

theorem append (hfirst : Placed h t p slots tops owned) (hsecond : Placed h t p slots' tops' owned') :
    Placed h t p (slots ++ slots') (tops ++ tops') (owned ++ owned') := by
  induction hfirst with
  | nil => exact hsecond
  | plain hslot hinner _ _ ih =>
      have hplaced := Placed.plain hslot hinner (ih hsecond)
      simpa only [List.cons_append, List.append_assoc] using hplaced
  | element hchildren hnodup hmade hinner _ _ ih =>
      rw [List.cons_append, List.cons_append, List.append_assoc]
      exact .element hchildren hnodup hmade hinner (ih hsecond)
  | component hpresent hparent hwitness hdeveloped hinner _ _ ih =>
      rw [List.cons_append, List.append_assoc, List.append_assoc, List.cons_append]
      exact .component hpresent hparent hwitness hdeveloped hinner (ih hsecond)

theorem split (hplaced : Placed h t p (slots ++ slots') tops owned) :
    ∃ a c oa oc, tops = a ++ c ∧ owned = oa ++ oc ∧ Placed h t p slots a oa ∧ Placed h t p slots' c oc := by
  induction slots generalizing tops owned with
  | nil => exact ⟨[], tops, [], owned, rfl, rfl, .nil, hplaced⟩
  | cons slot slots ih =>
      cases hplaced with
      | plain hslot hinner houter =>
          obtain ⟨a, c, oa, oc, rfl, rfl, ha, hc⟩ := ih houter
          exact ⟨_, c, _, oc, (List.append_assoc _ _ _).symm, (List.append_assoc _ _ _).symm,
            .plain hslot hinner ha, hc⟩
      | element hchildren hnodup hmade hinner houter =>
          obtain ⟨a, c, oa, oc, rfl, rfl, ha, hc⟩ := ih houter
          exact ⟨_, c, _, oc, rfl, (List.append_assoc _ _ _).symm,
            .element hchildren hnodup hmade hinner ha, hc⟩
      | component hpresent hparent hwitness hdeveloped hinner houter =>
          obtain ⟨a, c, oa, oc, rfl, rfl, ha, hc⟩ := ih houter
          exact ⟨_, c, _, oc, by rw [List.append_assoc]; rfl, (List.append_assoc _ _ _).symm,
            .component hpresent hparent hwitness hdeveloped hinner ha, hc⟩

theorem parent_of_core {i i' : Instance} (hcore : i'.core = i.core) : i'.parent = i.parent := by
  have hparent := congrArg Instance.parent hcore
  exact hparent

theorem witness_of_core {i i' : Instance} (hcore : i'.core = i.core) : i'.witness = i.witness := by
  have hwitness := congrArg Instance.witness hcore
  exact hwitness

/-- Where a component on its own stands: its output, and its marker after it. -/
theorem of_component {id : InstanceId} {i : Instance} {r : Rendered}
    (hplaced : Placed h t p [.component id] tops owned) (hpresent : t[id.index]? = some i)
    (hdeveloped : i.developed = some r) :
    ∃ inner witness, tops = inner ++ [witness] ∧ i.parent = p ∧ i.witness = some witness ∧
      Placed h t p r.slots inner owned := by
  cases hplaced with
  | plain hslot => exact hslot.elim
  | component hpresent' hparent hwitness hdeveloped' hinner houter =>
      cases houter
      rw [hpresent] at hpresent'
      cases hpresent'
      rw [hdeveloped] at hdeveloped'
      cases hdeveloped'
      rw [List.append_nil]
      exact ⟨_, _, rfl, hparent, hwitness, hinner⟩

/-- Slots stay placed as long as the elements keep their children and the table agrees about what is held. -/
theorem congr {cs : List InstanceId} (hplaced : Placed h t p slots tops owned) (hholds : Holds t slots cs)
    (hagree : ∀ id ∈ cs, Agree t t' id) (hcount : h.count ≤ h'.count)
    (hchildren : ∀ n ∈ owned, h'.children n = h.children n) : Placed h' t' p slots tops owned := by
  induction hplaced generalizing cs with
  | nil => exact .nil
  | plain hslot _ _ ihinner ihouter =>
      cases hholds with
      | component => exact hslot.elim
      | part _ _ hinner houter =>
          exact .plain hslot
            (ihinner hinner (fun id hid => hagree id (by simp [hid])) fun n hn => hchildren n (by simp [hn]))
            (ihouter houter (fun id hid => hagree id (by simp [hid])) fun n hn => hchildren n (by simp [hn]))
  | element hkids hnodup hmade _ _ ihinner ihouter =>
      cases hholds with
      | part _ _ hinner houter =>
          exact .element ((hchildren _ (by simp)).trans hkids) hnodup
            (fun m hm => Nat.lt_of_lt_of_le (hmade m hm) hcount)
            (ihinner hinner (fun id hid => hagree id (by simp [hid])) fun n hn => hchildren n (by simp [hn]))
            (ihouter houter (fun id hid => hagree id (by simp [hid])) fun n hn => hchildren n (by simp [hn]))
  | component hpresent hparent hwitness hdeveloped _ _ ihinner ihouter =>
      cases hholds with
      | part hslot => exact absurd rfl (hslot _)
      | component hpresent' hdeveloped' _ _ hinner houter =>
          rw [hpresent] at hpresent'
          cases hpresent'
          rw [hdeveloped] at hdeveloped'
          cases hdeveloped'
          obtain ⟨i', hpresent', hcore⟩ := (hagree _ (by simp)).some hpresent
          exact .component hpresent' ((parent_of_core hcore).trans hparent)
            ((witness_of_core hcore).trans hwitness) ((Instance.developed_of_core hcore).trans hdeveloped)
            (ihinner hinner (fun id hid => hagree id (by simp [hid])) fun n hn => hchildren n (by simp [hn]))
            (ihouter houter (fun id hid => hagree id (by simp [hid])) fun n hn => hchildren n (by simp [hn]))

end Placed

/-- The block of an output among the children of its parent, and the elements under which more of it stands:
all of them are nodes of the host, different from each other and from what stands around the block, and no
parent belongs to a hook. -/
structure Block (T : Territory b) (σ : Stage ω) (p : NodeId) (before tops after owned : List NodeId) :
    Prop where
  children : σ.host.children p = before ++ tops ++ after
  made : ∀ n ∈ before ++ tops ++ after, n.index < σ.host.count
  nodup : tops.Nodup
  apart : ∀ n ∈ tops, n ∉ before ∧ n ∉ after
  free : ∀ n ∈ p :: owned, Free T σ n
  distinct : (p :: owned).Nodup
  sound : ∀ n, T.foreign σ.world n → n.index < σ.host.count

/-- What a shift does to nodes: those that come are new, and apart from the parents concerned every parent
keeps its children. -/
structure Moved (T : Territory b) (σ : Stage ω) (p : NodeId) (tops owned : List NodeId) (σ' : Stage ω)
    (tops' owned' : List NodeId) : Prop where
  count : σ.host.count ≤ σ'.host.count
  newTops : ∀ n ∈ tops', n ∈ tops ∨ σ.host.count ≤ n.index
  newOwned : ∀ n ∈ owned', n ∈ owned ∨ σ.host.count ≤ n.index
  children : ∀ n, Free T σ n → n ≠ p → n ∉ owned → σ'.host.children n = σ.host.children n
  foreign : ∀ n, T.foreign σ'.world n → T.foreign σ.world n ∨ σ.host.count ≤ n.index

variable {p : NodeId} {tops tops₁ tops' owned owned₁ owned' before after : List NodeId}

namespace Moved

theorem free (h : Moved T σ p tops owned σ' tops' owned') {n : NodeId} (hn : Free T σ n) : Free T σ' n := by
  refine ⟨Nat.lt_of_lt_of_le hn.lt h.count, fun hforeign => ?_⟩
  rcases h.foreign n hforeign with hold | hnew
  · exact hn.own hold
  · exact absurd hn.lt (Nat.not_lt.mpr hnew)

theorem of_undisturbed (h : Undisturbed T σ σ') : Moved T σ p tops owned σ' tops owned :=
  ⟨h.count, fun _ hn => .inl hn, fun _ hn => .inl hn, fun n hn _ _ => h.children n hn,
    fun n hn => (h.foreign n hn).imp_right And.left⟩

theorem trans (h : Moved T σ p tops owned σ₁ tops₁ owned₁) (h' : Moved T σ₁ p tops₁ owned₁ σ' tops' owned') :
    Moved T σ p tops owned σ' tops' owned' := by
  have hcount := h.count
  refine ⟨Nat.le_trans h.count h'.count, fun n hn => ?_, fun n hn => ?_, fun n hn hne hnot => ?_,
    fun n hn => ?_⟩
  · rcases h'.newTops n hn with hmid | hnew
    · exact h.newTops n hmid
    · exact .inr (Nat.le_trans hcount hnew)
  · rcases h'.newOwned n hn with hmid | hnew
    · exact h.newOwned n hmid
    · exact .inr (Nat.le_trans hcount hnew)
  · have hmid : n ∉ owned₁ := fun hmid => (h.newOwned n hmid).elim hnot fun hnew =>
      absurd hn.lt (Nat.not_lt.mpr hnew)
    rw [h'.children n (h.free hn) hne hmid, h.children n hn hne hnot]
  · rcases h'.foreign n hn with hmid | hnew
    · exact h.foreign n hmid
    · exact .inr (Nat.le_trans hcount hnew)

/-- Nodes that end a block stay at its end. -/
theorem ended (ends : List NodeId) (h : Moved T σ p tops owned σ' tops' owned') :
    Moved T σ p (tops ++ ends) owned σ' (tops' ++ ends) owned' := by
  refine ⟨h.count, fun n hn => ?_, h.newOwned, h.children, h.foreign⟩
  rcases List.mem_append.mp hn with hn | hn
  · exact (h.newTops n hn).imp_left fun hold => List.mem_append_left _ hold
  · exact .inl (List.mem_append_right _ hn)

end Moved

namespace Block

theorem undisturbed (h : Block T σ p before tops after owned) (hquiet : Undisturbed T σ σ') :
    Block T σ' p before tops after owned where
  children := (hquiet.children p (h.free p List.mem_cons_self)).trans h.children
  made n hn := Nat.lt_of_lt_of_le (h.made n hn) hquiet.count
  nodup := h.nodup
  apart := h.apart
  free n hn := hquiet.free (h.free n hn)
  distinct := h.distinct
  sound n hn := by
    rcases hquiet.foreign n hn with hold | hnew
    · exact Nat.lt_of_lt_of_le (h.sound n hold) hquiet.count
    · exact hnew.2

/-- The block of some of the slots, among the nodes around the whole block and those of the other slots. -/
theorem inner {a c oa oc : List NodeId} (h : Block T σ p before (a ++ tops ++ c) after (oa ++ owned ++ oc)) :
    Block T σ p (before ++ a) tops (c ++ after) owned where
  children := by rw [h.children]; simp only [List.append_assoc]
  made n hn := h.made n (by simpa only [List.append_assoc] using hn)
  nodup := (h.nodup.sublist (List.sublist_append_left _ _)).sublist (List.sublist_append_right _ _)
  apart n hn := by
    have hnodup := h.nodup
    have hapart := h.apart n (by simp [hn])
    simp only [List.nodup_append, List.mem_append] at hnodup ⊢
    refine ⟨fun hbefore => ?_, fun hafter => ?_⟩
    · rcases hbefore with hbefore | ha
      · exact hapart.1 hbefore
      · exact hnodup.1.2.2 n ha n hn rfl
    · rcases hafter with hc | hafter
      · exact hnodup.2.2 n (.inr hn) n hc rfl
      · exact hapart.2 hafter
  free n hn := h.free n (by simp only [List.mem_cons, List.mem_append] at hn ⊢; grind)
  distinct := h.distinct.sublist (List.Sublist.cons_cons _
    ((List.sublist_append_right _ _).trans (List.sublist_append_left _ _)))
  sound := h.sound

/-- A shift of some of the slots, seen from the whole block. -/
theorem outer {a c oa oc : List NodeId}
    (h : Block T σ p before (a ++ tops ++ c) after (oa ++ owned ++ oc))
    (hinner : Block T σ' p (before ++ a) tops' (c ++ after) owned')
    (hmoved : Moved T σ p tops owned σ' tops' owned') :
    Block T σ' p before (a ++ tops' ++ c) after (oa ++ owned' ++ oc) where
  children := by rw [hinner.children]; simp only [List.append_assoc]
  made n hn := hinner.made n (by simpa only [List.append_assoc] using hn)
  nodup := by
    have hnodup := h.nodup
    have hapart := hinner.apart
    have hnodup' := hinner.nodup
    simp only [List.nodup_append, List.mem_append] at hnodup hapart ⊢
    refine ⟨⟨hnodup.1.1, hnodup', ?_⟩, hnodup.2.1, ?_⟩
    · rintro x hx y hy rfl
      exact (hapart x hy).1 (.inr hx)
    · rintro x hx y hy rfl
      rcases hx with hx | hx
      · exact hnodup.2.2 x (.inl hx) x hy rfl
      · exact (hapart x hx).2 (.inl hy)
  apart n hn := by
    have hapart := h.apart n
    have hapart' := hinner.apart n
    simp only [List.mem_append] at hn hapart hapart'
    grind
  free n hn := by
    have hfree := h.free n
    have hfree' := hinner.free n
    simp only [List.mem_cons, List.mem_append] at hn hfree hfree'
    rcases hn with hn | (hn | hn) | hn
    · exact hfree' (.inl hn)
    · exact hmoved.free (hfree (.inr (.inl (.inl hn))))
    · exact hfree' (.inr hn)
    · exact hmoved.free (hfree (.inr (.inr hn)))
  distinct := by
    have hdistinct := h.distinct
    have hdistinct' := hinner.distinct
    have hold : ∀ n, n ∈ oa ∨ n ∈ oc → n ∉ owned' := by
      intro n hn hmem
      rcases hmoved.newOwned n hmem with hmem | hnew
      · simp only [List.nodup_cons, List.nodup_append, List.mem_append] at hdistinct
        rcases hn with hn | hn
        · exact hdistinct.2.1.2.2 n hn n hmem rfl
        · exact hdistinct.2.2.2 n (.inr hmem) n hn rfl
      · exact absurd (h.free n (by simp only [List.mem_cons, List.mem_append]; grind)).lt (Nat.not_lt.mpr hnew)
    simp only [List.nodup_cons, List.nodup_append, List.mem_append] at hdistinct hdistinct' ⊢
    refine ⟨by grind, ⟨hdistinct.2.1.1, hdistinct'.2, ?_⟩, hdistinct.2.2.1, ?_⟩
    · rintro x hx y hy rfl
      exact hold x (.inl hx) hy
    · rintro x hx y hy rfl
      rcases hx with hx | hx
      · exact hdistinct.2.2.2 x (.inl hx) x hy rfl
      · exact hold x (.inr hy) hx
  sound := hinner.sound

/-- The block before the nodes that end it. -/
theorem unended {ends : List NodeId} (h : Block T σ p before (tops ++ ends) after owned) :
    Block T σ p before tops (ends ++ after) owned := by
  have hwhole : Block T σ p before ([] ++ tops ++ ends) after ([] ++ owned ++ []) := by
    simpa only [List.append_nil, List.nil_append] using h
  simpa only [List.append_nil] using hwhole.inner

theorem ended {ends : List NodeId} (h : Block T σ p before (tops ++ ends) after owned)
    (hinner : Block T σ' p before tops' (ends ++ after) owned')
    (hmoved : Moved T σ p tops owned σ' tops' owned') : Block T σ' p before (tops' ++ ends) after owned' := by
  have hwhole : Block T σ p before ([] ++ tops ++ ends) after ([] ++ owned ++ []) := by
    simpa only [List.append_nil, List.nil_append] using h
  have hinner' : Block T σ' p (before ++ []) tops' (ends ++ after) owned' := by
    simpa only [List.append_nil] using hinner
  simpa only [List.append_nil, List.nil_append] using hwhole.outer hinner' hmoved

end Block

end Parlance
