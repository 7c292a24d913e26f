import Parlance.Proofs.Engine.Correspondence
import Parlance.Proofs.Engine.Opening
import Parlance.Proofs.Engine.Tending

/-! What is made for. Every node that a pass makes is the element, the text node or the marker of a slot that stands in
the output afterwards: rendering makes what its slots go by and nothing else, a diff makes nothing for slots that stay,
and a removal makes nothing at all. -/

namespace Parlance

open Pass

set_option linter.unusedSectionVars false

namespace Host

/-- The elements, text nodes and markers that were made, oldest first. -/
def created (h : Host) : List NodeId := h.calls.filterMap Mutation.made?

/-- Nothing has been made. -/
structure Barren (h h' : Host) : Prop where
  count : h'.count = h.count
  created : h'.created = h.created

/-- What has been made is new, and of some kind. -/
structure Creates (h h' : Host) (P : NodeId → Prop) : Prop where
  count : h.count ≤ h'.count
  created : ∃ ns, h'.created = h.created ++ ns ∧ ∀ n ∈ ns, h.count ≤ n.index ∧ P n

variable {h h₁ h' : Host} {P Q : NodeId → Prop}

theorem created_of_calls {ms : List Mutation} (h : h'.calls = h₁.calls ++ ms) :
    h'.created = h₁.created ++ ms.filterMap Mutation.made? := by rw [created, h, List.filterMap_append, created]

theorem created_of_inscribed {ms : List Mutation} (h : h'.calls = h₁.calls ++ ms)
    (hms : ∀ m ∈ ms, ∃ n, m.inscribed? = some n) : h'.created = h₁.created := by
  have hnone : ms.filterMap Mutation.made? = [] := List.filterMap_eq_nil_iff.mpr fun m hm => by
    obtain ⟨n, hn⟩ := hms m hm
    cases m <;> first | rfl | cases hn
  rw [created_of_calls h, hnone, List.append_nil]

namespace Barren

theorem refl (h : Host) : Barren h h := ⟨rfl, rfl⟩

theorem trans (h : Barren h₁ h') {h'' : Host} (hnext : Barren h' h'') : Barren h₁ h'' :=
  ⟨hnext.count.trans h.count, hnext.created.trans h.created⟩

theorem inscribes {n : NodeId} (h : Inscribes n h₁ h') : Barren h₁ h' := by
  obtain ⟨ms, hcalls, hms⟩ := h.calls
  exact ⟨h.tree.count, created_of_inscribed hcalls fun m hm => ⟨n, hms m hm⟩⟩

theorem still (h : Still h₁ h') : Barren h₁ h' := by
  obtain ⟨ms, hcalls, hms⟩ := h.calls
  exact ⟨h.tree.count, created_of_inscribed hcalls hms⟩

theorem removeChild (h : Host) (p n : NodeId) : Barren h (h.removeChild p n) :=
  ⟨count_removeChild .., (created_of_calls (calls_record _ _)).trans (List.append_nil _)⟩

theorem removeChildren (p : NodeId) (ns : List NodeId) (h : Host) :
    Barren h (ns.foldl (fun h n => h.removeChild p n) h) := by
  induction ns generalizing h with
  | nil => exact .refl h
  | cons n ns ih => exact (removeChild h p n).trans (ih _)

theorem addListener (h : Host) (n : NodeId) (event : String) (listener : Listener) :
    Barren h (h.addListener n event listener).2 :=
  ⟨(SameTree.addListener h n event listener).count, (created_of_calls (calls_record _ _)).trans (List.append_nil _)⟩

theorem removeListener (h : Host) (n : NodeId) (event : String) (id : ListenerId) :
    Barren h (h.removeListener n event id) :=
  ⟨(SameTree.removeListener h n event id).count, (created_of_calls (calls_record _ _)).trans (List.append_nil _)⟩

end Barren

namespace Creates

theorem barren (h : Barren h₁ h') : Creates h₁ h' P :=
  ⟨Nat.le_of_eq h.count.symm, [], by rw [h.created, List.append_nil], by simp⟩

theorem trans (h : Creates h₁ h' P) {h'' : Host} (hnext : Creates h' h'' P) : Creates h₁ h'' P := by
  obtain ⟨ns, hns, hall⟩ := h.created
  obtain ⟨ns', hns', hall'⟩ := hnext.created
  refine ⟨Nat.le_trans h.count hnext.count, ns ++ ns', by rw [hns', hns, List.append_assoc], fun n hn => ?_⟩
  rcases List.mem_append.mp hn with hn | hn
  · exact hall n hn
  · exact (hall' n hn).imp_left (Nat.le_trans h.count)

theorem mono (h : Creates h₁ h' P) (hPQ : ∀ n, P n → Q n) : Creates h₁ h' Q := by
  obtain ⟨ns, hns, hall⟩ := h.created
  exact ⟨h.count, ns, hns, fun n hn => (hall n hn).imp_right (hPQ n)⟩

theorem putNode {kind : NodeKind} {p : NodeId} {anchor : Option NodeId} {m : Mutation} (hm : m.made? = some h₁.next)
    (hP : P h₁.next) : Creates h₁ (h₁.putNode kind p anchor m) P := by
  have hcalls := calls_place ((h₁.alloc kind).record m) p h₁.next anchor
  rw [calls_record, calls_alloc, List.append_assoc] at hcalls
  refine ⟨?_, [h₁.next], ?_, ?_⟩
  · rw [Host.putNode, count_place, count_record, count_alloc]
    exact Nat.le_succ _
  · rw [Host.putNode, created_of_calls hcalls, List.filterMap_append, List.filterMap_cons, hm]
    cases anchor <;> rfl
  · rintro _ (_ | ⟨_, ⟨⟩⟩)
    exact ⟨Nat.le_refl _, hP⟩

theorem insertRaw (h : Host) (p : NodeId) (markup : String) (anchor : Option NodeId) :
    Creates h (h.insertRaw p markup anchor).2 P := by
  refine ⟨?_, [], created_of_calls (calls_record _ _), by simp⟩
  simp [Host.insertRaw, setParent]

theorem reinsertRaw (h : Host) (p : NodeId) (ns : List NodeId) (markup : String) (anchor : Option NodeId) :
    Creates h ((ns.foldl (fun h n => h.removeChild p n) h).insertRaw p markup anchor).2 P :=
  (barren (.removeChildren p ns h)).trans (insertRaw _ p markup anchor)

end Creates

end Host

section Removal

variable {within : InstanceId → Host → Host}

section Detaching

variable (hwithin : ∀ id h, Host.Barren h (within id h))
include hwithin

mutual

theorem Slot.detach_barren (p : NodeId) (lexem : Lexem) (h : Host) :
    ∀ slot : Slot, h.Barren (slot.detach within p lexem h)
  | .attribute => .inscribes (Lexem.clear_inscribes _ _ h)
  | .element node _ => .removeChild h p node
  | .text node => .removeChild h p node
  | .listener id => .removeListener h p _ id
  | .branch witness developed => (detachOption_barren p h developed).trans (.removeChild _ p witness)
  | .each witness items => (detachAll_barren p h items).trans (.removeChild _ p witness)
  | .raw witness nodes => (Host.Barren.removeChildren p nodes h).trans (.removeChild _ p witness)
  | .component id => hwithin id h
  | .compound developed => detachWith_barren p h developed
  | .skipped => .refl h
  | .effect => .refl h
  | .hook _ => .refl h

theorem detachWith_barren (p : NodeId) (h : Host) : ∀ r : Rendered, h.Barren (r.detachWith within p h)
  | ⟨_, sentence, slots⟩ => detachSlots_barren p h sentence.lexems slots

theorem detachSlots_barren (p : NodeId) (h : Host) :
    ∀ (lexems : List Lexem) (slots : List Slot), h.Barren (detachSlots within p h lexems slots)
  | lexem :: lexems, slot :: slots => (Slot.detach_barren p lexem h slot).trans (detachSlots_barren p _ lexems slots)
  | [], _ => by
      simp only [detachSlots]
      exact .refl h
  | _ :: _, [] => by
      simp only [detachSlots]
      exact .refl h

theorem detachAll_barren (p : NodeId) (h : Host) : ∀ rs : List Rendered, h.Barren (detachAll within p h rs)
  | [] => .refl h
  | r :: rs => (detachWith_barren p h r).trans (detachAll_barren p _ rs)

theorem detachOption_barren (p : NodeId) (h : Host) :
    ∀ developed : Option Rendered, h.Barren (detachOption within p h developed)
  | none => .refl h
  | some r => detachWith_barren p h r

end

end Detaching

theorem detachComponent_barren {t : Array Instance} (depth : Nat) (id : InstanceId) (h : Host) :
    h.Barren (detachComponent t depth id h) := by
  induction depth generalizing id h with
  | zero => exact .refl h
  | succ depth ih =>
      rw [detachComponent]
      cases t[id.index]? with
      | none => exact .refl h
      | some i =>
          dsimp only
          cases i.developed with
          | none =>
              cases i.witness with
              | none => exact .refl h
              | some w => exact .removeChild h i.parent w
          | some r =>
              have houtput := detachWith_barren ih i.parent h r
              cases i.witness with
              | none => exact houtput
              | some w => exact houtput.trans (.removeChild _ i.parent w)

end Removal

/-- A node that a slot goes by, wherever that stands. -/
def Borne (t : Array Instance) (slots : List Slot) (n : NodeId) : Prop :=
  ∃ p q slot, Stands t p slots q slot ∧ n ∈ slot.anchors t

section Borne

variable {t t₁ : Array Instance} {n : NodeId} {slots slots' : List Slot} {slot : Slot} {cs : List InstanceId}

theorem Borne.congr (h : Borne t slots n) (hholds : Holds t slots cs) (hagree : ∀ id ∈ cs, Agree t t₁ id) :
    Borne t₁ slots n := by
  obtain ⟨p, q, slot, hstands, hn⟩ := h
  obtain ⟨hstands₁, hanchors⟩ := hstands.congr hholds hagree
  exact ⟨p, q, slot, hstands₁, hanchors.symm ▸ hn⟩

theorem Borne.mono (h : Borne t slots n) (hsub : ∀ slot ∈ slots, slot ∈ slots') : Borne t slots' n := by
  obtain ⟨p, q, slot, hstands, hn⟩ := h
  exact ⟨p, q, slot, hstands.mono hsub, hn⟩

theorem Borne.inside (hslot : ∀ id, slot ≠ .component id) (h : Borne t (slotsOf slot.parts) n) : Borne t [slot] n := by
  obtain ⟨p, q, inner, hstands, hn⟩ := h
  obtain ⟨m, hm⟩ := hstands.under (slot.inside p)
  exact ⟨p, m, inner, hm.inside List.mem_cons_self hslot, hn⟩

theorem Borne.component {id : InstanceId} {i : Instance} {r : Rendered} (hpresent : t[id.index]? = some i)
    (hdeveloped : i.developed = some r) (h : Borne t r.slots n) : Borne t [.component id] n := by
  obtain ⟨p, q, slot, hstands, hn⟩ := h
  exact ⟨p, q, slot, .component List.mem_cons_self hpresent hdeveloped hstands, hn⟩

theorem Slot.mem_anchors_component {id : InstanceId} {i : Instance} (hpresent : t[id.index]? = some i)
    (hwitness : i.witness = some n) : n ∈ (Slot.component id).anchors t := by
  simp [Slot.anchors, hpresent, hwitness]

theorem Borne.own (p : NodeId) (hn : n ∈ slot.anchors t) : Borne t [slot] n :=
  ⟨p, p, slot, .here List.mem_cons_self, hn⟩

end Borne

variable {ω : Type} {b : Behaviour ω}

variable (b) in
/-- A turn by which nothing is made but what the slots of afterwards go by. -/
structure Bears (σ : Stage ω) (slots : List Slot) (σ' : Stage ω) (slots' : List Slot) : Prop where
  turn : Turn (blind b) σ slots σ' slots'
  creates : ∀ {cs}, Holds σ.instances slots cs → cs.Nodup → σ.host.Creates σ'.host (Borne σ'.instances slots')

variable (b) in
/-- The same for outputs with one slot for every lexem. -/
structure BearsAll (σ : Stage ω) (rs : List Rendered) (σ' : Stage ω) (rs' : List Rendered) : Prop where
  renewal : Renewal (blind b) σ rs σ' rs'
  bears : (∀ r ∈ rs, r.Paired) → Bears b σ (slotsOf rs) σ' (slotsOf rs')

variable {σ σ₁ σ' : Stage ω} {p : NodeId}

namespace Bears

variable {slots slots₂ slots' slots₂' : List Slot} {slot slot' : Slot}

/-- Slots stay, and nothing is made. -/
theorem keep (hhost : σ.host.Barren σ'.host) (hsize : σ'.instances.size = σ.instances.size)
    (hagree : ∀ id, Agree σ.instances σ'.instances id) : Bears b σ slots σ' slots :=
  ⟨.keep hsize hagree ⟨fun _ _ _ => trivial, fun _ => trivial⟩, fun _ _ => .barren hhost⟩

theorem refl : Bears b σ slots σ slots := keep (.refl _) rfl fun _ => rfl

/-- Something is done to the host before a pass. -/
theorem before (h : Bears b σ₁ slots σ' slots') (hsame : σ₁.instances = σ.instances)
    (hcreates : σ.host.Creates σ₁.host (Borne σ'.instances slots')) : Bears b σ slots σ' slots' := by
  refine ⟨(Turn.same hsame).trans h.turn, fun hholds hnodup => ?_⟩
  rw [← hsame] at hholds
  exact hcreates.trans (h.creates hholds hnodup)

/-- Something is done to the host after a pass. -/
theorem after (h : Bears b σ slots σ₁ slots') (hsame : σ'.instances = σ₁.instances)
    (hcreates : σ₁.host.Creates σ'.host (Borne σ'.instances slots')) : Bears b σ slots σ' slots' := by
  refine ⟨h.turn.trans (.same hsame), fun hholds hnodup => ?_⟩
  have hfirst := h.creates hholds hnodup
  rw [← hsame] at hfirst
  exact hfirst.trans hcreates

/-- Pieces that stand side by side, one after the other. -/
theorem append (h : Bears b σ slots σ₁ slots') (h' : Bears b σ₁ slots₂ σ' slots₂') :
    Bears b σ (slots ++ slots₂) σ' (slots' ++ slots₂') where
  turn := (h.turn.append_right _).trans (h'.turn.append_left _)
  creates hholds hnodup := by
    obtain ⟨as, cs₂, as', cs₂', rfl, ⟨hnodupA, hnodupC⟩, ⟨ha, ha'⟩, ⟨hc, -⟩, hagree, hagree'⟩ :=
      h.turn.abreast h'.turn hholds hnodup
    have hfirst : σ.host.Creates σ₁.host (Borne σ'.instances (slots' ++ slots₂')) :=
      (h.creates ha hnodupA).mono fun n hn => (hn.congr ha' hagree').mono fun _ => List.mem_append_left _
    exact hfirst.trans ((h'.creates (hc.congr hagree) hnodupC).mono fun n hn =>
      hn.mono fun _ => List.mem_append_right _)

/-- A slot without a component in the place of another one, by what happens inside. -/
theorem part (hslot : ∀ id, slot ≠ .component id) (hslot' : ∀ id, slot' ≠ .component id)
    (h : BearsAll b σ slot.parts σ' slot'.parts) : Bears b σ [slot] σ' [slot'] where
  turn := .part hslot hslot' h.renewal
  creates hholds hnodup := by
    cases hholds with
    | component => exact absurd rfl (hslot _)
    | part _ hpaired hinner houter =>
        cases houter
        rw [List.append_nil] at hnodup
        exact ((h.bears hpaired).creates hinner hnodup).mono fun n => .inside hslot'

/-- A new slot without a component, by what happens inside. -/
theorem born (hslot' : ∀ id, slot' ≠ .component id) (h : BearsAll b σ [] σ' slot'.parts) :
    Bears b σ [] σ' [slot'] where
  turn := .born hslot' h.renewal
  creates hholds hnodup := by
    cases hholds
    exact ((h.bears (by simp)).creates .nil hnodup).mono fun n => .inside hslot'

end Bears

namespace BearsAll

variable {rs rs' rs₂ rs₂' rest : List Rendered}

theorem refl : BearsAll b σ rs σ rs := ⟨.refl, fun _ => .refl⟩

theorem before (h : BearsAll b σ₁ rs σ' rs') (hsame : σ₁.instances = σ.instances)
    (hhost : σ.host.Barren σ₁.host) : BearsAll b σ rs σ' rs' :=
  ⟨(Renewal.same hsame).trans h.renewal, fun hpaired => (h.bears hpaired).before hsame (.barren hhost)⟩

theorem append (h : BearsAll b σ rs σ₁ rs') (h' : BearsAll b σ₁ rs₂ σ' rs₂') :
    BearsAll b σ (rs ++ rs₂) σ' (rs' ++ rs₂') := by
  refine ⟨(h.renewal.append_right rs₂).trans (h'.renewal.append_left rs'), fun hpaired => ?_⟩
  simp only [slotsOf_append]
  exact (h.bears fun r hr => hpaired r (List.mem_append_left _ hr)).append
    (h'.bears fun r hr => hpaired r (List.mem_append_right _ hr))

theorem chain {α : Type} {f : α → Pass ω Rendered} {as : List α}
    (hstep : ∀ {a σ r σ'}, f a σ = .ok r σ' → BearsAll b σ [] σ' [r]) (h : Chain f as σ rs σ') :
    BearsAll b σ [] σ' rs := by
  induction h with
  | nil => exact .refl
  | cons head _ ih => exact (hstep head).append ih

/-- Outputs brought up to a list of things, and those that are left over taken away. -/
theorem matching {α : Type} {new : α → Stage ω → Rendered → Stage ω → Prop}
    {kept : α → Rendered → Stage ω → Rendered → Stage ω → Prop} {as : List α} {olds : List Rendered}
    (hnew : ∀ {a σ r σ'}, new a σ r σ' → BearsAll b σ [] σ' [r])
    (hkept : ∀ {a old σ r σ'}, kept a old σ r σ' → BearsAll b σ [old] σ' [r])
    (h : Engine.Matching new kept as olds σ rs rest σ₁) (hrest : BearsAll b σ₁ rest σ' []) :
    BearsAll b σ olds σ' rs := by
  induction h with
  | rest => exact hrest
  | new head _ ih => exact (hnew head).append (ih hrest)
  | kept head _ ih => exact (hkept head).append (ih hrest)

end BearsAll

variable (hquiet : b.Quiet)
include hquiet

theorem Unhooking.barren (h : Unhooking b σ σ') : σ.host.Barren σ'.host := by
  induction h with
  | refl => exact .refl _
  | step hcall _ ih => exact (Host.Barren.still (hquiet (.remove hcall))).trans ih

theorem teardown_bears {parent : NodeId} {r : Rendered} (h : teardown b parent r σ = .ok () σ') :
    BearsAll b σ [r] σ' [] := by
  refine ⟨teardown_renewal (Watch.blind b) h, fun hpaired =>
    ⟨(teardown_renewal (Watch.blind b) h hpaired).2, fun hholds _ => ?_⟩⟩
  rw [slotsOf_cons, slotsOf_nil, List.append_nil] at hholds
  obtain ⟨σ₁, w₁, w₂, hunhooking, -, -, rfl⟩ := teardown_ok (hpaired r List.mem_cons_self) hholds h
  exact .barren ((hunhooking.barren hquiet).trans (detachWith_barren (detachComponent_barren _) _ _ _))

theorem teardownSlot_bears {parent : NodeId} {lexem : Lexem} {slot : Slot}
    (h : teardownSlot b parent lexem slot σ = .ok () σ') : Bears b σ [slot] σ' [] := by
  refine ⟨teardownSlot_turn (Watch.blind b) h, fun hholds _ => ?_⟩
  obtain ⟨σ₁, w₁, w₂, hunhooking, -, -, rfl⟩ := teardownSlot_ok hholds h
  exact .barren ((hunhooking.barren hquiet).trans (Slot.detach_barren (detachComponent_barren _) _ _ _ _))

theorem teardowns_bears {parent : NodeId} {rs : List Rendered} (h : Sweep (teardown b parent) rs σ σ') :
    BearsAll b σ rs σ' [] := by
  induction h with
  | nil => exact .refl
  | cons head _ ih => exact (teardown_bears hquiet head).append ih

section Steps

variable {render : Cursor → Phrase → Pass ω Rendered} {diff : Engine → Cursor → Phrase → Rendered → Pass ω Rendered}
variable {e : Engine} {c : Cursor} {lexem old : Lexem} {slot slot' : Slot}

variable (b) in
omit hquiet in
/-- Rendering as deep as one likes makes only what its output goes by. -/
def RenderBears (render : Cursor → Phrase → Pass ω Rendered) : Prop :=
  ∀ ⦃c phrase σ r σ'⦄, render c phrase σ = .ok r σ' → BearsAll b σ [] σ' [r]

variable (b) in
omit hquiet in
/-- A diff as deep as one likes makes only what its output goes by. -/
def DiffBears (diff : Engine → Cursor → Phrase → Rendered → Pass ω Rendered) : Prop :=
  ∀ ⦃e c phrase previous σ r σ'⦄, diff e c phrase previous σ = .ok r σ' → BearsAll b σ [previous] σ' [r]

/-- A component that is mounted: what its output goes by is made, and its marker. -/
theorem mount_bears (hrender : RenderBears b render) (hrenders : Renders (Watch.blind b) render)
    {factory : Factory} {props : Arg} {s : Sentence} {r : Rendered} {w₁ w₂ w₃ w₄ : ω} {label : String}
    (hcreate : b.create factory ⟨σ.instances.size⟩ props σ.world = .ok () w₁)
    (hwill : b.lifecycle ⟨σ.instances.size⟩ .willMount w₁ = .ok () w₂)
    (hview : b.view ⟨σ.instances.size⟩ w₂ = .ok s w₃)
    (hinner : render { c with component := some ⟨σ.instances.size⟩ } (.new s)
      ⟨σ.host, σ.instances.push ⟨factory, e, c.parent, none, none, []⟩, w₃⟩ = .ok r σ')
    (hdid : b.lifecycle ⟨σ.instances.size⟩ .didMount σ'.world = .ok () w₄) :
    Bears b σ [] (((σ'.onHost (·.putMarker c label)).onInstance ⟨σ.instances.size⟩
      fun i => { i with developed := some r, witness := some σ'.host.next }).inWorld w₄)
      [.component ⟨σ.instances.size⟩] := by
  refine ⟨mount_turn (Watch.blind b) hrenders hcreate hwill hview hinner hdid, fun hholds _ => ?_⟩
  cases hholds
  obtain ⟨j, inner, hpaired, hheld, hagree, hj, hdeveloped, hwitness, -⟩ :=
    mount_opens σ'.host.next hrenders hinner
  have hall := ((hrender hinner).bears (by simp)).creates .nil List.nodup_nil
  simp only [slotsOf_cons, slotsOf_nil, List.append_nil] at hall
  refine (hall.mono fun n hn => (hn.congr hheld hagree).component hj hdeveloped).trans (.putNode rfl (.own c.parent ?_))
  exact Slot.mem_anchors_component hj hwitness

/-- A component that is rendered again. -/
theorem update_bears (hdiff : DiffBears b diff) (hdiffs : Diffs (Watch.blind b) diff) {id : InstanceId}
    (h : Engine.UpdateStep b diff id σ σ') : Bears b σ [.component id] σ' [.component id] := by
  refine ⟨fun cs hholds hmounted => update_exchange (Watch.blind b) hdiffs h hholds hmounted.nodup
    (fun _ _ _ => trivial) (fun _ _ => trivial) trivial .view, fun hholds hnodup => ?_⟩
  obtain ⟨i, j, previous, next, s, w, σ₁, inner, inner', -, -, hpaired, ⟨hinner, hinnerNodup⟩, hagree, hrun, rfl, -,
    hinner', hagree', hj, hnext, -⟩ := h.opens hdiffs hholds hnodup
  have hall := (hdiff hrun).bears (by simpa using hpaired)
  simp only [slotsOf_cons, slotsOf_nil, List.append_nil] at hall
  exact (hall.creates (hinner.congr hagree) hinnerNodup).mono fun n hn => (hn.congr hinner' hagree').component hj hnext

/-- A lexem that is rendered makes what its slot goes by. -/
theorem RenderStep.bears (hrender : RenderBears b render) (hrenders : Renders (Watch.blind b) render)
    (h : Engine.RenderStep b render e c lexem σ slot σ') : Bears b σ [] σ' [slot] := by
  cases h with
  | skipped | callback => exact .born (by simp) (.before .refl rfl (.refl _))
  | compound _ _ _ hinner => exact .born (by simp) ((hrender hinner).before rfl (.refl _))
  | «attribute» => exact .born (by simp) (.before .refl rfl (.inscribes (.writeAll _ _ _)))
  | listener => exact .born (by simp) (.before .refl rfl (.addListener _ _ _ _))
  | hook _ _ _ hcall => exact .born (by simp) (.before .refl rfl (.still (hquiet (.render hcall))))
  | text => exact .after (.born (by simp) .refl) rfl (.putNode rfl (.own c.parent List.mem_cons_self))
  | element _ _ _ _ hinner =>
      exact .before (.born (by simp) (.chain (fun h => hrender h) hinner)) rfl
        (.putNode rfl (.own c.parent List.mem_cons_self))
  | branch _ _ _ _ hinner | each _ _ _ hinner =>
      exact .after (.born (by simp) (.before (.chain (fun h => hrender h) hinner) rfl (.refl _))) rfl
        (.putNode rfl (.own c.parent List.mem_cons_self))
  | raw =>
      exact .after (.born (by simp) .refl) rfl ((Host.Creates.insertRaw _ _ _ _).trans
        (.putNode rfl (.own c.parent List.mem_cons_self)))
  | name _ _ hname =>
      obtain ⟨t, rfl, hsize, hagree⟩ := nameNode_ok hname
      have hborn : Bears b σ [] σ [.effect] := .born (by simp) .refl
      exact hborn.append (Bears.keep (.refl _) hsize hagree : Bears b σ [] { σ with instances := t } [])
  | component _ _ _ hcreate hwill hview hinner hdid =>
      exact mount_bears hquiet hrender hrenders hcreate hwill hview hinner hdid

/-- A lexem that is diffed makes what its slot did not go by before. -/
theorem DiffStep.bears (hrender : RenderBears b render) (hrenders : Renders (Watch.blind b) render)
    (hdiff : DiffBears b diff) (hdiffs : Diffs (Watch.blind b) diff)
    (h : Engine.DiffStep b render diff e c lexem old σ slot slot' σ') : Bears b σ [slot] σ' [slot'] := by
  cases h with
  | kept | callback => exact .keep (.refl _) rfl fun _ => rfl
  | redeveloped _ _ _ _ hrun => exact .part (by simp) (by simp) ((hdiff hrun).before rfl (.refl _))
  | rewritten _ _ _ hrewrite => exact .keep (.inscribes (rewrite_inscribes hrewrite _)) rfl fun _ => rfl
  | text => exact .keep (.inscribes (.entry _ _ _ _ rfl)) rfl fun _ => rfl
  | rebound => exact .keep ⟨rfl, rfl⟩ rfl fun _ => rfl
  | hook _ _ _ _ hcall => exact .keep (.still (hquiet (.diff hcall))) rfl fun _ => rfl
  | rehooked _ _ _ _ _ hremove hcall =>
      exact .keep ((Host.Barren.still (hquiet (.remove hremove))).trans (.still (hquiet (.render hcall)))) rfl
        fun _ => rfl
  | moved =>
      exact .part (by simp) (by simp) (.before .refl rfl
        ((Host.Barren.removeListener _ _ _ _).trans (.addListener _ _ _ _)))
  | @raw witness nodes =>
      have hstay : Bears b σ [.raw witness nodes] σ [.raw witness ((nodes.foldl (fun h n => h.removeChild c.parent n)
          σ.host).insertRaw c.parent (lexem.arg 0).toText (some witness)).1] := .part (by simp) (by simp) .refl
      exact hstay.after rfl (.reinsertRaw σ.host c.parent nodes (lexem.arg 0).toText (some witness))
  | retagged _ _ _ _ hstep hremove =>
      exact (RenderStep.bears hquiet hrender hrenders hstep).append (teardownSlot_bears hquiet hremove)
  | tag _ _ _ _ hkids hrest =>
      refine .part (by simp) (by simp) (.matching ?_ ?_ hkids (teardowns_bears hquiet hrest))
      · rintro _ _ _ _ ⟨phrase, -, hrun⟩
        exact hrender hrun
      · intro _ _ _ _ _ hchild
        cases hchild with
        | same => exact .refl
        | diffed _ hrun => exact hdiff hrun
  | branch _ _ _ _ _ hrun => exact .part (by simp) (by simp) ((hdiff hrun).before rfl (.refl _))
  | flipped _ _ _ _ _ hremove hinner =>
      have hwhole := (teardowns_bears hquiet hremove).append (.chain (fun h => hrender h) hinner)
      rw [List.append_nil, List.nil_append] at hwhole
      exact .part (by simp) (by simp) (hwhole.before rfl (.refl _))
  | each _ _ _ hitems hrest =>
      exact .part (by simp) (by simp) (.before (.matching (fun hrun => hrender hrun) (fun hrun => hdiff hrun) hitems
        (teardowns_bears hquiet hrest)) rfl (.refl _))
  | name _ _ hname =>
      obtain ⟨t, rfl, hsize, hagree⟩ := nameNode_ok hname
      exact .keep (.refl _) hsize hagree
  | component _ _ _ _ _ _ hupdate =>
      exact .before (update_bears hquiet hdiff hdiffs hupdate) rfl (.barren (.refl _))

/-- The slots of a sentence that is rendered, lexem by lexem. -/
theorem renderChain_bears (hrender : RenderBears b render) (hrenders : Renders (Watch.blind b) render)
    {lexems : List Lexem} {slots : List Slot} (h : Chain (Engine.renderLexem b render e c) lexems σ slots σ') :
    Bears b σ [] σ' slots := by
  induction h with
  | nil => exact .refl
  | cons head _ ih => exact (RenderStep.bears hquiet hrender hrenders (Engine.renderLexem_step head)).append ih

/-- The slots of a sentence that is diffed, lexem by lexem. -/
theorem DiffSteps.bears (hrender : RenderBears b render) (hrenders : Renders (Watch.blind b) render)
    (hdiff : DiffBears b diff) (hdiffs : Diffs (Watch.blind b) diff) {lexems olds : List Lexem}
    {slots slots' : List Slot} (h : Engine.DiffSteps b render diff e c lexems olds slots σ slots' σ') :
    Bears b σ slots σ' slots' := by
  induction h with
  | nil => exact .refl
  | cons _ head _ ih => exact (DiffStep.bears hquiet hrender hrenders hdiff hdiffs head).append ih

end Steps

theorem renderWithin_bears {depth : Nat} {e : Engine} : RenderBears b (Engine.renderWithin b depth e) := by
  induction depth with
  | zero =>
      intro c phrase σ r σ' h
      cases h
  | succ depth ih =>
      intro c phrase σ r σ' h
      refine ⟨renderWithin_renewal (Watch.blind b) h, fun _ => ?_⟩
      obtain ⟨slots, rfl, hchain⟩ := Engine.renderPhrase_ok h
      simpa [slotsOf] using renderChain_bears hquiet ih (renderWithin_renewal (Watch.blind b)) hchain

theorem diffWithin_bears {depth : Nat} : DiffBears b (Engine.diffWithin b depth) := by
  induction depth with
  | zero =>
      intro e c phrase previous σ r σ' h
      cases h
  | succ depth ih =>
      intro e c phrase previous σ r σ' h
      refine ⟨diffWithin_renewal (Watch.blind b) h, fun hpaired => ?_⟩
      rcases Engine.diffPhrase_ok (hpaired previous List.mem_cons_self) h with ⟨-, rfl, rfl⟩ | ⟨-, slots, rfl, hsteps⟩
      · exact .refl
      · simpa [slotsOf] using DiffSteps.bears hquiet (renderWithin_bears hquiet) (renderWithin_renewal (Watch.blind b))
          ih (diffWithin_renewal (Watch.blind b)) hsteps

end Parlance
