import Parlance.Proofs.Engine.Rebuilding

/-! What a rendering leaves so that a diff against a rebuild can be silent. The properties that the rendering set
still have their values, worlds have only gone on, and components are what they were. A stretch of a rendering
settles when going through it again under these conditions succeeds and neither changes a node nor records a
call. -/

namespace Parlance

open Pass

variable {ω : Type}

namespace Host

variable {h h₁ h' : Host}

theorem mutations_detach (h : Host) (n : NodeId) : (h.detach n).mutations = h.mutations := by
  unfold detach
  split <;> rfl

theorem mutations_place (h : Host) (parent n : NodeId) (anchor : Option NodeId) :
    (h.place parent n anchor).mutations = h.mutations.push
      (anchor.elim (.append parent n) fun reference => .insertBefore parent n reference) := by
  cases anchor with
  | none =>
      change (h.detach n).mutations.push _ = _
      rw [mutations_detach]
      rfl
  | some reference =>
      change (h.detach n).mutations.push _ = _
      rw [mutations_detach]
      rfl

namespace Received

variable {calls calls' : List Mutation}

theorem refl (h : Host) : h.Received [] h := ⟨(List.append_nil _).symm, Nat.le_refl _, fun _ _ _ => rfl⟩

theorem trans (hfirst : h.Received calls h₁) (hsecond : h₁.Received calls' h') :
    h.Received (calls ++ calls') h' := by
  refine ⟨?_, Nat.le_trans hfirst.count hsecond.count, fun n name hnew => ?_⟩
  · rw [hsecond.log, hfirst.log, List.append_assoc]
  · rw [List.filterMap_append, List.mem_append, not_or] at hnew
    exact (hsecond.property n name hnew.2).trans (hfirst.property n name hnew.1)

end Received

/-- A host has received calls, and these are the properties that they set. -/
def Sets (properties : List (NodeId × String)) (h h' : Host) : Prop :=
  ∃ calls, h.Received calls h' ∧ calls.filterMap Mutation.property? = properties

namespace Sets

variable {properties properties' : List (NodeId × String)}

theorem refl (h : Host) : Sets [] h h := ⟨[], .refl h, rfl⟩

theorem trans (hfirst : Sets properties h h₁) (hsecond : Sets properties' h₁ h') :
    Sets (properties ++ properties') h h' := by
  obtain ⟨calls, hcalls, rfl⟩ := hfirst
  obtain ⟨calls', hcalls', rfl⟩ := hsecond
  exact ⟨calls ++ calls', hcalls.trans hcalls', List.filterMap_append⟩

theorem frame (hsets : Sets properties h h') {p : NodeId × String} (hp : p ∉ properties) :
    h'.property? p.1 p.2 = h.property? p.1 p.2 := by
  obtain ⟨calls, hcalls, rfl⟩ := hsets
  exact hcalls.property p.1 p.2 hp

theorem count (hsets : Sets properties h h') : h.count ≤ h'.count := by
  obtain ⟨calls, hcalls, -⟩ := hsets
  exact hcalls.count

/-- A call that is not about properties and leaves the contents alone. -/
theorem of_sameContents (hsame : SameContents h h') {m : Mutation} (hlog : h'.mutations = h.mutations.push m)
    (hm : m.property? = none) : Sets [] h h' := by
  refine ⟨[m], ⟨by rw [hlog, Array.toList_push], Nat.le_of_eq hsame.count.symm, fun n name _ => ?_⟩, by simp [hm]⟩
  rw [property?, property?, hsame.content]

theorem of_makes {kind : NodeKind} {parent : NodeId} (hmakes : Makes kind parent h h') {calls : List Mutation}
    (hlog : h'.mutations.toList = h.mutations.toList ++ calls) (hcalls : calls.filterMap Mutation.property? = []) :
    Sets [] h h' := by
  refine ⟨calls, ⟨hlog, by rw [hmakes.count]; exact Nat.le_succ _, fun n name _ => ?_⟩, hcalls⟩
  rw [property?, property?, hmakes.content]
  split
  · next heq =>
    have hdefault : h.node h.next = default := by simp [node, next]
    rw [heq, content, hdefault]
    rfl
  · rfl

theorem putNode (h : Host) (kind : NodeKind) (parent : NodeId) (anchor : Option NodeId) {m : Mutation}
    (hm : m.property? = none) : Sets [] h (h.putNode kind parent anchor m) := by
  have hlog : (h.putNode kind parent anchor m).mutations.toList = h.mutations.toList ++
      [m, anchor.elim (.append parent h.next) fun reference => .insertBefore parent h.next reference] := by
    rw [Host.putNode, mutations_place]
    simp [record, alloc]
  refine of_makes (putNode_makes h parent kind anchor m) hlog ?_
  cases anchor <;> simp only [List.filterMap_cons, hm] <;> rfl

theorem insertRaw (h : Host) (parent : NodeId) (markup : String) (anchor : Option NodeId) :
    Sets [] h (h.insertRaw parent markup anchor).2 := by
  have hlog : (h.insertRaw parent markup anchor).2.mutations.toList =
      h.mutations.toList ++ [.insertRaw parent markup] := Array.toList_push
  exact of_makes (insertRaw_makes h parent markup anchor) hlog rfl

theorem addListener (h : Host) (n : NodeId) (event : String) (listener : Listener) :
    Sets [] h (h.addListener n event listener).2 :=
  of_sameContents (.addListener h n event listener) rfl rfl

end Sets

end Host

/-- The properties of a node that are set when an entry is put there. -/
def Write.properties (n : NodeId) : Write → List (NodeId × String)
  | .property name _ => [(n, name)]
  | _ => []

namespace Host

variable {h : Host} {n : NodeId}

theorem property?_write (hn : n.index < h.count) (w : Write) {m : NodeId} {name : String}
    (hother : (m, name) ∉ w.properties n) : (h.write n w).property? m name = h.property? m name := by
  have hmodify : ∀ (f : Content → Content) (mutation : Mutation),
      (m = n → (f (h.content m)).properties.get? name = (h.content m).properties.get? name) →
      ((h.modifyContent n f).record mutation).property? m name = h.property? m name := by
    intro f mutation hf
    change ((h.modifyContent n f).content m).properties.get? name = _
    rw [content_modifyContent h f hn, property?]
    split
    · next heq => exact hf heq
    · rfl
  cases w with
  | property other value =>
      refine hmodify _ _ fun heq => ?_
      rw [Entries.get?_put, if_neg]
      rintro rfl
      exact hother (List.mem_singleton.mpr (heq ▸ rfl))
  | _ => exact hmodify _ _ fun _ => rfl

theorem Sets.write (hn : n.index < h.count) (w : Write) : Sets (w.properties n) h (h.write n w) := by
  have hcount : h.count ≤ (h.write n w).count := Nat.le_of_eq (write_touches hn w).count.symm
  have hsets : ∀ mutation : Mutation, (h.write n w).mutations = h.mutations.push mutation →
      mutation.property?.toList = w.properties n → Sets (w.properties n) h (h.write n w) := by
    intro mutation hlog hmutation
    have hcalls : [mutation].filterMap Mutation.property? = w.properties n := by
      rw [← hmutation, List.filterMap_cons]
      cases mutation.property? <;> rfl
    refine ⟨[mutation], ⟨by rw [hlog, Array.toList_push], hcount, fun m name hother => ?_⟩, hcalls⟩
    exact property?_write hn w (hcalls ▸ hother)
  cases w <;> exact hsets _ rfl rfl

theorem Sets.writeAll (hn : n.index < h.count) (ws : List Write) :
    Sets (ws.flatMap (Write.properties n)) h (h.writeAll n ws) := by
  induction ws generalizing h with
  | nil => exact .refl h
  | cons w ws ih =>
      rw [List.flatMap_cons]
      exact (Sets.write hn w).trans (ih (Nat.lt_of_lt_of_le hn (Sets.write hn w).count))

/-- A property that has been set has its value. -/
theorem property?_setProperty (hn : n.index < h.count) (name : String) (value : Scalar) :
    (h.setProperty n name value).property? n name = some value := by
  change ((h.modifyContent n fun c => { c with properties := c.properties.put name value }).content n).properties.get?
    name = _
  rw [content_modifyContent h _ hn, if_pos rfl, Entries.get?_put, if_pos rfl]

end Host

namespace Rebuilding

variable {b : Behaviour ω} {e : Engine} (R : Rebuilding b e)

/-- A stage further on: the world has gone on, and the components there were are still what they are. -/
structure Onward (σ σ' : Stage ω) : Prop where
  world : R.later σ.world σ'.world
  factories : ∀ (n : Nat) (i : Instance), σ.instances[n]? = some i →
    ∃ i', σ'.instances[n]? = some i' ∧ i'.factory = i.factory

/-- A stage further on with the same nodes, where no further call is recorded. -/
structure Quiet (σ σ' : Stage ω) : Prop extends R.Onward σ σ' where
  nodes : σ'.host.nodes = σ.host.nodes
  mutations : σ'.host.mutations = σ.host.mutations

/-- A stretch of a pass from one stage to another settles: with what is a rebuild of the former input it can be
gone through again in silence, as long as the properties that it set have their values. -/
def Settles {ι α : Type} (c : Cursor) (σ σ' : Stage ω) (rebuilt : ω → ι → Prop)
    (again : Cursor → ι → Stage ω → α → Stage ω → Prop) : Prop :=
  ∃ properties, Host.Sets properties σ.host σ'.host ∧ R.Onward σ σ' ∧ (properties.Nodup →
    ∀ anchor x τ, rebuilt τ.world x → R.Onward σ' τ →
      (∀ p ∈ properties, τ.host.property? p.1 p.2 = σ'.host.property? p.1 p.2) →
      ∃ y τ', again { c with anchor } x τ y τ' ∧ R.Quiet τ τ')

variable {R} {σ σ₁ σ' τ : Stage ω}

namespace Onward

theorem refl (σ : Stage ω) : R.Onward σ σ := ⟨R.refl _, fun _ i hi => ⟨i, hi, rfl⟩⟩

theorem trans (hfirst : R.Onward σ σ₁) (hsecond : R.Onward σ₁ σ') : R.Onward σ σ' := by
  refine ⟨R.trans hfirst.world hsecond.world, fun n i hi => ?_⟩
  obtain ⟨i₁, hi₁, hfactory₁⟩ := hfirst.factories n i hi
  obtain ⟨i', hi', hfactory'⟩ := hsecond.factories n i₁ hi₁
  exact ⟨i', hi', hfactory'.trans hfactory₁⟩

theorem inWorld {w : ω} (hlater : R.later σ.world w) : R.Onward σ (σ.inWorld w) :=
  ⟨hlater, fun _ i hi => ⟨i, hi, rfl⟩⟩

theorem onHost (σ : Stage ω) (f : Host → Host) : R.Onward σ (σ.onHost f) := ⟨R.refl _, fun _ i hi => ⟨i, hi, rfl⟩⟩

theorem onInstance (σ : Stage ω) (id : InstanceId) {f : Instance → Instance}
    (hf : ∀ i, (f i).factory = i.factory) : R.Onward σ (σ.onInstance id f) := by
  refine ⟨R.refl _, fun n i hi => ?_⟩
  rw [Stage.onInstance_instances, Array.getElem?_modify, hi]
  split
  · exact ⟨f i, rfl, hf i⟩
  · exact ⟨i, rfl, rfl⟩

end Onward

namespace Quiet

theorem refl (σ : Stage ω) : R.Quiet σ σ := ⟨.refl σ, rfl, rfl⟩

theorem trans (hfirst : R.Quiet σ σ₁) (hsecond : R.Quiet σ₁ σ') : R.Quiet σ σ' :=
  ⟨hfirst.toOnward.trans hsecond.toOnward, hsecond.nodes.trans hfirst.nodes,
    hsecond.mutations.trans hfirst.mutations⟩

theorem inWorld {w : ω} (hlater : R.later σ.world w) : R.Quiet σ (σ.inWorld w) := ⟨.inWorld hlater, rfl, rfl⟩

theorem property (h : R.Quiet σ σ') (n : NodeId) (name : String) :
    σ'.host.property? n name = σ.host.property? n name := by
  rw [Host.property?, Host.property?, Host.content, Host.content, Host.node, Host.node, h.nodes]

end Quiet

/-- A stretch that settles, between calls that set no properties, makes up one that settles. -/
theorem Settles.within {ι ι' α β : Type} {c c₁ : Cursor} {σ₂ : Stage ω} {rebuilt : ω → ι → Prop}
    {rebuilt' : ω → ι' → Prop} {again : Cursor → ι → Stage ω → α → Stage ω → Prop}
    {again' : Cursor → ι' → Stage ω → β → Stage ω → Prop} (h : R.Settles c₁ σ₁ σ₂ rebuilt again)
    (hbefore : Host.Sets [] σ.host σ₁.host) (honward : R.Onward σ σ₁)
    (hafter : Host.Sets [] σ₂.host σ'.host) (honward' : R.Onward σ₂ σ')
    (hagain : ∀ anchor x τ, rebuilt' τ.world x → R.Onward σ₁ τ →
      (∀ anchor x τ₁, R.Quiet τ τ₁ → rebuilt τ₁.world x →
        ∃ y τ', again { c₁ with anchor } x τ₁ y τ' ∧ R.Quiet τ₁ τ') →
      ∃ y τ', again' { c with anchor } x τ y τ' ∧ R.Quiet τ τ') : R.Settles c σ σ' rebuilt' again' := by
  obtain ⟨properties, hsets, hinner, hsettles⟩ := h
  have hwhole := (hbefore.trans hsets).trans hafter
  rw [List.nil_append, List.append_nil] at hwhole
  refine ⟨properties, hwhole, (honward.trans hinner).trans honward', fun hnodup anchor x τ hx hτ hheld => ?_⟩
  refine hagain anchor x τ hx ((hinner.trans honward').trans hτ) fun anchor x₁ τ₁ hquiet hx₁ => ?_
  refine hsettles hnodup anchor x₁ τ₁ hx₁ ((honward'.trans hτ).trans hquiet.toOnward) fun p hp => ?_
  exact ((hquiet.property p.1 p.2).trans (hheld p hp)).trans (hafter.frame List.not_mem_nil)

section Sequences

variable {α β ι : Type}

/-- A list of things, each with its former one and what was left of that, gone through again in order. -/
inductive Resumed (again : α → β → ι → Stage ω → β → Stage ω → Prop) :
    List α → List β → List ι → Stage ω → List β → Stage ω → Prop
  | nil {τ : Stage ω} : Resumed again [] [] [] τ [] τ
  | cons {a : α} {as : List α} {b b' : β} {bs bs' : List β} {x : ι} {xs : List ι} {τ τ₁ τ' : Stage ω}
      (head : again a b x τ b' τ₁) (tail : Resumed again as bs xs τ₁ bs' τ') :
      Resumed again (a :: as) (b :: bs) (x :: xs) τ (b' :: bs') τ'

/-- A chain settles if each of its links does. No link sets a property that an earlier one has set. -/
theorem settles_chain {f : α → Pass ω β} (rebuilt : α → ω → ι → Prop)
    (again : α → β → Cursor → ι → Stage ω → β → Stage ω → Prop) {c : Cursor} {as : List α} {bs : List β}
    (hmono : ∀ {a w w' x}, R.later w w' → rebuilt a w x → rebuilt a w' x)
    (hlinks : ∀ {a σ b σ'}, c.parent.index < σ.host.count → f a σ = .ok b σ' →
      R.Settles c σ σ' (rebuilt a) (again a b))
    (hparent : c.parent.index < σ.host.count) (h : Chain f as σ bs σ') :
    R.Settles c σ σ' (fun w xs => List.Forall₂ (fun x a => rebuilt a w x) xs as)
      fun c => Resumed (fun a b => again a b c) as bs := by
  induction h with
  | nil =>
      refine ⟨[], .refl _, .refl _, fun _ _ xs τ hxs _ _ => ?_⟩
      cases hxs
      exact ⟨[], τ, .nil, .refl τ⟩
  | @cons a as b bs σ σ₁ σ' head _ ih =>
      obtain ⟨properties, hsets, honward, hagain⟩ := hlinks hparent head
      obtain ⟨properties', hsets', honward', hagain'⟩ := ih (Nat.lt_of_lt_of_le hparent hsets.count)
      refine ⟨properties ++ properties', hsets.trans hsets', honward.trans honward',
        fun hnodup anchor xs τ hxs hτ hheld => ?_⟩
      obtain ⟨hnodup₁, hnodup₂, hdisjoint⟩ := List.nodup_append.mp hnodup
      cases hxs with
      | @cons x _ xs _ hx hxs =>
      have hheld₁ : ∀ p ∈ properties, τ.host.property? p.1 p.2 = σ₁.host.property? p.1 p.2 := fun p hp =>
        (hheld p (List.mem_append_left _ hp)).trans (hsets'.frame fun hp' => hdisjoint p hp p hp' rfl)
      obtain ⟨b', τ₁, hfirst, hquiet⟩ := hagain hnodup₁ anchor x τ hx (honward'.trans hτ) hheld₁
      obtain ⟨bs', τ', hrest, hquiet'⟩ := hagain' hnodup₂ anchor xs τ₁
        (hxs.imp fun _ _ => hmono hquiet.world) (hτ.trans hquiet.toOnward)
        fun p hp => (hquiet.property p.1 p.2).trans (hheld p (List.mem_append_right _ hp))
      exact ⟨b' :: bs', τ', .cons hfirst hrest, hquiet.trans hquiet'⟩

end Sequences

end Rebuilding

end Parlance
