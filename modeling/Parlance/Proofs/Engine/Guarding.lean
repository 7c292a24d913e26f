import Parlance.Engine.Output
import Parlance.Proofs.Engine.Fencing
import Parlance.Proofs.Host.Issuing
import Parlance.Proofs.Host.Minding

/-! Passes that may fail at any point. Whatever a pass comes to, the host changes only in ways that a warden allows: new
nodes are put under nodes that are there, and nodes are taken off the parents that they were put under, as they are
known from the output and from the table of components. A removal is never an error. -/

namespace Parlance

open Pass

variable {ω : Type} {b : Behaviour ω}

/-- One that looks after a host: what has to hold of it, how it may turn into another one, and which nodes may be taken
off a parent. Components from an index on are those of the passes that are looked at. -/
structure Warden where
  first : Nat
  sound : Host → Prop
  turns : Host → Host → Prop
  owns : Host → NodeId → NodeId → Prop
  refl : ∀ h, turns h h
  trans : ∀ {h h₁ h'}, turns h h₁ → turns h₁ h' → turns h h'
  count : ∀ {h h'}, turns h h' → h.count ≤ h'.count
  keeps : ∀ {h h'}, sound h → turns h h' → sound h'
  later : ∀ {h h' p n}, turns h h' → owns h p n → owns h' p n
  inside : ∀ {h p n}, owns h p n → n.index < h.count
  quiet : ∀ {h h' ms}, sound h → Host.SameTree h h' → (∀ n, h'.parent n = h.parent n) → h'.calls = h.calls ++ ms →
    (∀ m ∈ ms, ∃ n, m.inscribed? = some n ∧ n.index < h.count) → h.Relistens h' → turns h h'
  adds : ∀ {h h' p anchor}, sound h → p.index < h.count → (∀ a ∈ anchor, a.index < h.count) →
    Host.Adds p anchor h h' → turns h h' ∧ owns h' p h.next

namespace Warden

variable (W : Warden)

/-- Nodes may be taken off the parents that they belong to. -/
def Drops : Prop := ∀ {h h' p n}, W.sound h → p.index < h.count → W.owns h p n → Host.Drops p [n] h h' → W.turns h h'

/-- Hooks do as the warden allows. -/
def Hooks (b : Behaviour ω) : Prop := ∀ {h w h' w'}, b.Hooks h w h' w' → W.sound h → W.turns h h'

/-- Slots with nodes at any depth that may be taken away, each off the parent that it stands under. -/
inductive Own (h : Host) : NodeId → List Slot → Prop
  | nil {p : NodeId} : Own h p []
  | cons {p : NodeId} {slot : Slot} {slots : List Slot} (hnodes : ∀ n ∈ slot.mark.tops, W.owns h p n)
      (hlate : ∀ id, slot = .component id → W.first ≤ id.index) (hinner : Own h (slot.inside p) (slotsOf slot.parts))
      (houter : Own h p slots) : Own h p (slot :: slots)

/-- A component with nodes that may be taken away. -/
structure OwnInstance (h : Host) (i : Instance) : Prop where
  site : i.parent.index < h.count
  witness : ∀ n, i.witness = some n → W.owns h i.parent n
  output : ∀ r, i.developed = some r → W.Own h i.parent r.slots

/-- The table of components, with those of the passes that are looked at. -/
structure Tidy (h : Host) (t : Array Instance) : Prop where
  size : W.first ≤ t.size
  own : ∀ (id : InstanceId) (i : Instance), W.first ≤ id.index → t[id.index]? = some i → W.OwnInstance h i

structure Safe (σ : Stage ω) : Prop where
  host : W.sound σ.host
  table : W.Tidy σ.host σ.instances

/-- One stage comes after another: the host has turned, and components stand where they stood. -/
structure Onward (σ σ' : Stage ω) : Prop where
  host : W.turns σ.host σ'.host
  table : ∀ (id : InstanceId) (i : Instance), σ.instances[id.index]? = some i →
    ∃ i', σ'.instances[id.index]? = some i' ∧ i'.parent = i.parent

/-- A pass that is safe after a stage, whether it succeeds or ends in an error; if it may not end in one, that is said.
What it gives back is as it should be. -/
def Guards {α : Type} (errs : Prop) (σ₀ : Stage ω) (m : Pass ω α) (Q : α → Stage ω → Prop) : Prop :=
  ∀ σ, W.Onward σ₀ σ → W.Safe σ → match m σ with
    | .ok a σ' => W.Onward σ σ' ∧ W.Safe σ' ∧ Q a σ'
    | .error (.error _) σ' => errs ∧ W.Onward σ σ' ∧ W.Safe σ'
    | .error (.trouble _) _ => True

variable {W}

namespace Own

variable {h h' : Host} {p : NodeId} {slot : Slot} {slots slots' : List Slot} {rs : List Rendered}

theorem later (hown : W.Own h p slots) (hturns : W.turns h h') : W.Own h' p slots := by
  induction hown with
  | nil => exact .nil
  | cons hnodes hlate _ _ ihinner ihouter =>
      exact .cons (fun n hn => W.later hturns (hnodes n hn)) hlate ihinner ihouter

/-- Another warden may allow for more nodes to be taken away. -/
theorem imp {W' : Warden} (hfirst : W'.first = W.first) (howns : ∀ p n, W.owns h p n → W'.owns h p n)
    (hown : W.Own h p slots) : W'.Own h p slots := by
  induction hown with
  | nil => exact .nil
  | cons hnodes hlate _ _ ihinner ihouter =>
      exact .cons (fun n hn => howns _ n (hnodes n hn)) (hfirst ▸ hlate) ihinner ihouter

theorem append (hown : W.Own h p slots) (hown' : W.Own h p slots') : W.Own h p (slots ++ slots') := by
  induction hown with
  | nil => exact hown'
  | cons hnodes hlate hinner _ _ ih => exact .cons hnodes hlate hinner (ih hown')

theorem split (hown : W.Own h p (slots ++ slots')) : W.Own h p slots ∧ W.Own h p slots' := by
  induction slots with
  | nil => exact ⟨.nil, hown⟩
  | cons slot slots ih =>
      cases hown with
      | cons hnodes hlate hinner houter =>
      obtain ⟨hfirst, hsecond⟩ := ih houter
      exact ⟨.cons hnodes hlate hinner hfirst, hsecond⟩

theorem first (hown : W.Own h p (slot :: slots)) : W.Own h p [slot] ∧ W.Own h p slots := by
  rw [← List.singleton_append] at hown
  exact hown.split

theorem of_all (hown : ∀ r ∈ rs, W.Own h p r.slots) : W.Own h p (slotsOf rs) := by
  induction rs with
  | nil => exact .nil
  | cons r rs ih =>
      rw [slotsOf_cons]
      exact (hown r List.mem_cons_self).append (ih fun r hr => hown r (List.mem_cons_of_mem _ hr))

theorem all (hown : W.Own h p (slotsOf rs)) : ∀ r ∈ rs, W.Own h p r.slots := by
  induction rs with
  | nil => simp
  | cons r rs ih =>
      rw [slotsOf_cons] at hown
      intro r' hr'
      rcases List.mem_cons.mp hr' with rfl | hr'
      · exact hown.split.1
      · exact ih hown.split.2 r' hr'

theorem parts (hown : W.Own h p [slot]) : ∀ r ∈ slot.parts, W.Own h (slot.inside p) r.slots := by
  cases hown with
  | cons _ _ hinner => exact hinner.all

theorem nodes (hown : W.Own h p [slot]) : ∀ n ∈ slot.mark.tops, W.owns h p n := by
  cases hown with
  | cons hnodes => exact hnodes

theorem component {id : InstanceId} (hown : W.Own h p [.component id]) : W.first ≤ id.index := by
  cases hown with
  | cons _ hlate => exact hlate id rfl

/-- A slot with outputs inside it that is no component. -/
theorem part (hslot : ∀ id, slot ≠ .component id) (hnodes : ∀ n ∈ slot.mark.tops, W.owns h p n)
    (hparts : ∀ r ∈ slot.parts, W.Own h (slot.inside p) r.slots) : W.Own h p [slot] :=
  .cons hnodes (fun id heq => absurd heq (hslot id)) (.of_all hparts) .nil

/-- A slot without nodes and without anything inside it. -/
theorem bare (hslot : ∀ id, slot ≠ .component id) (hnodes : slot.mark.tops = []) (hparts : slot.parts = []) :
    W.Own h p [slot] :=
  .part hslot (by simp [hnodes]) (by simp [hparts])

/-- A component that is one of those that are looked at. -/
theorem of_late {id : InstanceId} (hid : W.first ≤ id.index) : W.Own h p [.component id] :=
  .cons nofun (by rintro _ ⟨⟩; exact hid) .nil .nil

end Own

theorem OwnInstance.later {h h' : Host} {i : Instance} (hown : W.OwnInstance h i) (hturns : W.turns h h') :
    W.OwnInstance h' i :=
  ⟨Nat.lt_of_lt_of_le hown.site (W.count hturns), fun n hn => W.later hturns (hown.witness n hn),
    fun r hr => (hown.output r hr).later hturns⟩

namespace Tidy

variable {h h' : Host} {t : Array Instance}

theorem imp {W' : Warden} (hfirst : W'.first = W.first) (howns : ∀ p n, W.owns h p n → W'.owns h p n)
    (ht : W.Tidy h t) : W'.Tidy h t where
  size := hfirst ▸ ht.size
  own id i hlate hget := by
    obtain ⟨hsite, hwitness, houtput⟩ := ht.own id i (hfirst ▸ hlate) hget
    exact ⟨hsite, fun n hn => howns _ n (hwitness n hn), fun r hr => (houtput r hr).imp hfirst howns⟩

theorem later (ht : W.Tidy h t) (hturns : W.turns h h') : W.Tidy h' t :=
  ⟨ht.size, fun id i hlate hget => (ht.own id i hlate hget).later hturns⟩

theorem modify (ht : W.Tidy h t) (id : InstanceId) {f : Instance → Instance}
    (hf : ∀ i, t[id.index]? = some i → W.OwnInstance h i → W.OwnInstance h (f i)) : W.Tidy h (t.modify id.index f) := by
  refine ⟨by rw [Array.size_modify]; exact ht.size, fun id' i hlate hget => ?_⟩
  rw [Array.getElem?_modify] at hget
  split at hget
  next heq =>
    obtain ⟨j, hj, rfl⟩ := Option.map_eq_some_iff.mp hget
    exact hf j (heq ▸ hj) (ht.own id' j hlate hj)
  next => exact ht.own id' i hlate hget

theorem push (ht : W.Tidy h t) {i : Instance} (hi : W.OwnInstance h i) : W.Tidy h (t.push i) := by
  refine ⟨Nat.le_trans ht.size (by simp), fun id j hlate hget => ?_⟩
  rw [Array.getElem?_push] at hget
  split at hget
  · cases hget
    exact hi
  · exact ht.own id j hlate hget

end Tidy

namespace Onward

variable {σ σ₁ σ' : Stage ω}

theorem refl (σ : Stage ω) : W.Onward σ σ := ⟨W.refl _, fun _ i hi => ⟨i, hi, rfl⟩⟩

theorem trans (hfirst : W.Onward σ σ₁) (hsecond : W.Onward σ₁ σ') : W.Onward σ σ' := by
  refine ⟨W.trans hfirst.host hsecond.host, fun id i hi => ?_⟩
  obtain ⟨i₁, hi₁, hparent⟩ := hfirst.table id i hi
  obtain ⟨i', hi', hparent'⟩ := hsecond.table id i₁ hi₁
  exact ⟨i', hi', hparent'.trans hparent⟩

/-- Only the host has turned, and perhaps the world. -/
theorem onHost {h : Host} {w : ω} (hturns : W.turns σ.host h) : W.Onward σ ⟨h, σ.instances, w⟩ :=
  ⟨hturns, fun _ i hi => ⟨i, hi, rfl⟩⟩

theorem count (h : W.Onward σ σ') {n : NodeId} (hn : n.index < σ.host.count) : n.index < σ'.host.count :=
  Nat.lt_of_lt_of_le hn (W.count h.host)

end Onward

theorem Own.onward {σ σ' : Stage ω} {p : NodeId} {slots : List Slot} (hown : W.Own σ.host p slots)
    (honward : W.Onward σ σ') : W.Own σ'.host p slots := hown.later honward.host

theorem Safe.turned {σ : Stage ω} {h : Host} {w : ω} (hsafe : W.Safe σ) (hturns : W.turns σ.host h) :
    W.Safe ⟨h, σ.instances, w⟩ := ⟨W.keeps hsafe.host hturns, hsafe.table.later hturns⟩

section Turns

variable {h h' : Host} {n : NodeId}

theorem inscribes (hsound : W.sound h) (hn : n.index < h.count) (hinscribes : Host.Inscribes n h h') : W.turns h h' := by
  obtain ⟨ms, hcalls, hms⟩ := hinscribes.calls
  exact W.quiet hsound hinscribes.tree hinscribes.links.parent hcalls (fun m hm => ⟨n, hms m hm, hn⟩)
    (.of_same hinscribes.links.bound hinscribes.links.targets)

theorem addListener (hsound : W.sound h) (hn : n.index < h.count) (event : String) (listener : Listener) :
    W.turns h (h.addListener n event listener).2 := by
  refine W.quiet hsound (.addListener h n event listener) (Host.parent_addListener h event listener)
    (Host.calls_record _ _) (fun m hm => ⟨n, ?_, hn⟩) (.addListener h n event listener)
  rw [List.mem_singleton.mp hm]
  rfl

theorem removeListener (hsound : W.sound h) (hn : n.index < h.count) (event : String) (id : ListenerId) :
    W.turns h (h.removeListener n event id) := by
  refine W.quiet hsound (.removeListener h n event id) (Host.parent_removeListener h event id)
    (Host.calls_record _ _) (fun m hm => ⟨n, ?_, hn⟩) (.removeListener h n event id)
  rw [List.mem_singleton.mp hm]
  rfl

theorem rebind (hsound : W.sound h) (id : ListenerId) (listener : Listener) : W.turns h (h.rebind id listener) :=
  W.quiet hsound (.rebind h id listener) (fun _ => rfl) (List.append_nil _).symm (by simp) (.rebind h id listener)

end Turns

namespace Guards

variable {α β : Type} {errs : Prop} {σ₀ σ₁ : Stage ω} {m : Pass ω α} {Q R : α → Stage ω → Prop} {S : β → Stage ω → Prop}

theorem onward (hm : W.Guards errs σ₀ m Q) (honward : W.Onward σ₀ σ₁) : W.Guards errs σ₁ m Q := fun σ hσ =>
  hm σ (honward.trans hσ)

/-- What a guarded pass has come to when it succeeds. -/
theorem ok {a : α} (hm : W.Guards errs σ₀ m Q) (hsafe : W.Safe σ₀) (hrun : m σ₀ = .ok a σ₁) :
    W.Onward σ₀ σ₁ ∧ W.Safe σ₁ ∧ Q a σ₁ := by
  have hguards := hm σ₀ (.refl σ₀) hsafe
  rwa [hrun] at hguards

/-- What it has come to when it ends in an error. -/
theorem error {e : PassError} (hm : W.Guards errs σ₀ m Q) (hsafe : W.Safe σ₀) (hrun : m σ₀ = .error (.error e) σ₁) :
    errs ∧ W.Onward σ₀ σ₁ ∧ W.Safe σ₁ := by
  have hguards := hm σ₀ (.refl σ₀) hsafe
  rwa [hrun] at hguards

theorem pure {a : α} (ha : ∀ σ, W.Onward σ₀ σ → Q a σ) : W.Guards errs σ₀ (Pure.pure a : Pass ω α) Q := fun σ hσ hsafe =>
  ⟨.refl σ, hsafe, ha σ hσ⟩

theorem bind {f : α → Pass ω β} (hm : W.Guards errs σ₀ m Q)
    (hf : ∀ a σ₁, W.Onward σ₀ σ₁ → Q a σ₁ → W.Guards errs σ₁ (f a) S) : W.Guards errs σ₀ (m >>= f) S := by
  intro σ hσ hsafe
  have hfirst := hm σ hσ hsafe
  change match EStateM.bind m f σ with
    | .ok a σ' => W.Onward σ σ' ∧ W.Safe σ' ∧ S a σ'
    | .error (.error _) σ' => errs ∧ W.Onward σ σ' ∧ W.Safe σ'
    | .error (.trouble _) _ => True
  unfold EStateM.bind
  split at hfirst
  next a σ₁ hrun =>
    rw [hrun]
    have hsecond := hf a σ₁ (hσ.trans hfirst.1) hfirst.2.2 σ₁ (.refl σ₁) hfirst.2.1
    dsimp only
    split at hsecond
    · exact ⟨hfirst.1.trans hsecond.1, hsecond.2⟩
    · exact ⟨hsecond.1, hfirst.1.trans hsecond.2.1, hsecond.2.2⟩
    · trivial
  next hrun =>
    rw [hrun]
    exact hfirst
  next hrun =>
    rw [hrun]
    trivial

/-- A pass after one whose result does not depend on the stage. -/
theorem seq {q : α → Prop} {f : α → Pass ω β} (hm : W.Guards errs σ₀ m fun a _ => q a)
    (hf : ∀ a, q a → W.Guards errs σ₀ (f a) S) : W.Guards errs σ₀ (m >>= f) S :=
  .bind hm fun a _ honward ha => (hf a ha).onward honward

theorem weaken (hm : W.Guards errs σ₀ m Q) (hQ : ∀ a σ, Q a σ → R a σ) : W.Guards errs σ₀ m R := by
  intro σ hσ hsafe
  have hrun := hm σ hσ hsafe
  split at hrun
  · exact ⟨hrun.1, hrun.2.1, hQ _ _ hrun.2.2⟩
  · exact hrun
  · trivial

theorem fail (e : PassError) : W.Guards True σ₀ (Pass.fail e : Pass ω α) Q := fun σ _ hsafe => ⟨trivial, .refl σ, hsafe⟩

theorem ofExcept (x : Except PassError α) : W.Guards True σ₀ (Pass.ofExcept x : Pass ω α) fun a _ => x = .ok a := by
  cases x with
  | ok a => exact .pure fun _ _ => rfl
  | error e => exact .fail e

/-- Nothing but the world has changed. -/
theorem inWorld {σ : Stage ω} (hsafe : W.Safe σ) (w : ω) :
    W.Onward σ { σ with world := w } ∧ W.Safe { σ with world := w } :=
  ⟨.onHost (W.refl _), hsafe.turned (W.refl _)⟩

theorem attempt {ε : Type} {cause : ε → PassError} {action : Attempt ε ω α} :
    W.Guards True σ₀ (Pass.attempt cause action) fun _ _ => True := by
  intro σ _ hsafe
  unfold Pass.attempt
  cases action σ.world with
  | ok a w => exact ⟨(inWorld hsafe w).1, (inWorld hsafe w).2, trivial⟩
  | error e w =>
      cases e with
      | error e => exact ⟨trivial, inWorld hsafe w⟩
      | trouble t => trivial

theorem act {action : Act ω α} : W.Guards errs σ₀ (Pass.act action) fun _ _ => True := by
  intro σ _ hsafe
  unfold Pass.act
  cases action σ.world with
  | ok a w => exact ⟨(inWorld hsafe w).1, (inWorld hsafe w).2, trivial⟩
  | error => trivial

theorem actOnHost (hhooks : W.Hooks b) {action : Host → Act ω Host}
    (haction : ∀ {h w h' w'}, action h w = .ok h' w' → b.Hooks h w h' w') :
    W.Guards errs σ₀ (Pass.actOnHost action) fun _ _ => True := by
  intro σ _ hsafe
  unfold Pass.actOnHost
  cases hcall : action σ.host σ.world with
  | ok h w =>
      have hturns := hhooks (haction hcall) hsafe.host
      exact ⟨.onHost hturns, hsafe.turned hturns, trivial⟩
  | error => trivial

theorem edit {f : Host → Host} (hf : ∀ σ : Stage ω, W.Onward σ₀ σ → W.sound σ.host → W.turns σ.host (f σ.host)) :
    W.Guards errs σ₀ (Pass.edit f : Pass ω Unit) fun _ _ => True := fun σ hσ hsafe =>
  ⟨.onHost (hf σ hσ hsafe.host), hsafe.turned (hf σ hσ hsafe.host), trivial⟩

theorem make {q : α → Host → Prop} {f : Host → α × Host}
    (hf : ∀ σ : Stage ω, W.Onward σ₀ σ → W.sound σ.host → W.turns σ.host (f σ.host).2 ∧ q (f σ.host).1 (f σ.host).2) :
    W.Guards errs σ₀ (Pass.make f : Pass ω α) fun a σ => q a σ.host := fun σ hσ hsafe =>
  ⟨.onHost (hf σ hσ hsafe.host).1, hsafe.turned (hf σ hσ hsafe.host).1, (hf σ hσ hsafe.host).2⟩

theorem instances : W.Guards errs σ₀ (Pass.instances : Pass ω (Array Instance)) fun t σ =>
    t = σ.instances ∧ W.Tidy σ.host t := fun σ _ hsafe => ⟨.refl σ, hsafe, rfl, hsafe.table⟩

theorem editInstance (id : InstanceId) {f : Instance → Instance} (hparent : ∀ i, (f i).parent = i.parent)
    (hf : ∀ (σ : Stage ω) i, W.Onward σ₀ σ → σ.instances[id.index]? = some i → W.OwnInstance σ.host i →
      W.OwnInstance σ.host (f i)) : W.Guards errs σ₀ (Pass.editInstance id f : Pass ω Unit) fun _ _ => True := by
  intro σ hσ hsafe
  refine ⟨⟨W.refl _, fun id' i hi => ?_⟩, ⟨hsafe.host, hsafe.table.modify id fun i => hf σ i hσ⟩, trivial⟩
  change ∃ i', (σ.instances.modify id.index f)[id'.index]? = some i' ∧ i'.parent = i.parent
  rw [Array.getElem?_modify, hi]
  split
  · exact ⟨f i, rfl, hparent i⟩
  · exact ⟨i, rfl, rfl⟩

theorem mapM {f : α → Pass ω β} {as : List α} (hstable : ∀ {x σ σ'}, W.Onward σ σ' → S x σ → S x σ')
    (hf : ∀ a ∈ as, W.Guards errs σ₀ (f a) S) : W.Guards errs σ₀ (as.mapM f) fun bs σ => ∀ x ∈ bs, S x σ := by
  induction as generalizing σ₀ with
  | nil => exact .pure (by simp)
  | cons a as ih =>
      rw [List.mapM_cons]
      refine .bind (hf a List.mem_cons_self) fun x σ₁ honward hx => ?_
      refine .bind (ih fun a ha => (hf a (List.mem_cons_of_mem _ ha)).onward honward) fun xs σ₂ honward' hxs => ?_
      refine .pure fun σ hσ y hy => ?_
      rcases List.mem_cons.mp hy with rfl | hy
      · exact hstable (honward'.trans hσ) hx
      · exact hstable hσ (hxs y hy)

theorem forM {f : α → Pass ω PUnit} {as : List α} (hf : ∀ a ∈ as, W.Guards errs σ₀ (f a) fun _ _ => True) :
    W.Guards errs σ₀ (as.forM f) fun _ _ => True := by
  induction as generalizing σ₀ with
  | nil => exact .pure fun _ _ => trivial
  | cons a as ih =>
      change W.Guards errs σ₀ (f a >>= fun _ => as.forM f) fun _ _ => True
      exact .bind (hf a List.mem_cons_self) fun _ _ honward _ => ih fun a ha =>
        (hf a (List.mem_cons_of_mem _ ha)).onward honward

end Guards

end Warden

/-- A cursor among the nodes of a host. -/
structure Cursor.Within (c : Cursor) (h : Host) : Prop where
  parent : c.parent.index < h.count
  anchor : ∀ a ∈ c.anchor, a.index < h.count

namespace Cursor.Within

variable {W : Warden} {c : Cursor} {h : Host} {σ σ' : Stage ω} {n : NodeId}

theorem onward (hc : c.Within σ.host) (honward : W.Onward σ σ') : c.Within σ'.host :=
  ⟨honward.count hc.parent, fun a ha => honward.count (hc.anchor a ha)⟩

theorem root (hn : n.index < h.count) : (Cursor.root n).Within h := ⟨hn, nofun⟩

theorem inside (hn : n.index < h.count) : (c.inside n).Within h := ⟨hn, nofun⟩

theorem before (hc : c.Within h) (hn : n.index < h.count) : (c.before n).Within h :=
  ⟨hc.parent, by rintro a ⟨⟩; exact hn⟩

/-- A node that is made at the cursor may be taken away from there again. -/
theorem puts (hc : c.Within h) (hsound : W.sound h) (kind : NodeKind) {m : Mutation} (hm : m.made? = some h.next) :
    W.turns h (h.putNode kind c.parent c.anchor m) ∧ W.owns (h.putNode kind c.parent c.anchor m) c.parent h.next :=
  W.adds hsound hc.parent hc.anchor (Host.putNode_adds kind hm hc.parent)

theorem witness {errs : Prop} (hc : c.Within σ.host) (e : Engine) (label : String) :
    W.Guards errs σ (Pass.witness e c label : Pass ω NodeId) fun n σ' => W.owns σ'.host c.parent n :=
  .make (q := fun n h => W.owns h c.parent n) fun _ hσ hsound => (hc.onward hσ).puts hsound _ rfl

end Cursor.Within

end Parlance
