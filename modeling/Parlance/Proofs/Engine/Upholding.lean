import Parlance.Proofs.Engine.Breaking
import Parlance.Proofs.Engine.Retention

/-! Outputs on a host that is a forest. Passes keep the forest, whatever they come to. As long as none has failed, every
node of the outputs stands where it was put and every component that is mounted is held by one of them; after a failure
it is still known of each node where it was put, if it stands anywhere. -/

namespace Parlance

open Pass Warden

variable {ω : Type} {b : Behaviour ω} {failed : Prop} {σ σ' : Stage ω} {os os' : Outputs} {p : NodeId} {r r' : Rendered}

/-- The rules for a pass that begins with a host. -/
def Host.rules (h : Host) (failed : Prop) : Rules := ⟨h.count, failed, False⟩

/-- Nothing is amiss: all nodes are where they were put, and whatever is mounted is held by an output. -/
def Whole (os : Outputs) (σ : Stage ω) : Prop :=
  ∃ os' cs posts, os'.Perm os ∧ Retained .loose os' σ cs posts ∧ Attached σ.host (linksOf posts) ∧
    ∀ (id : InstanceId) i, σ.instances[id.index]? = some i → i.developed ≠ none → id ∈ cs

/-- Outputs on a forest, after passes of which some may have failed. -/
structure Upheld (failed : Prop) (os : Outputs) (σ : Stage ω) : Prop where
  forest : σ.host.Forest
  safe : (σ.host.rules failed).warden.Safe σ
  inside : ∀ o ∈ os, o.1.index < σ.host.count
  own : ∀ o ∈ os, (σ.host.rules failed).warden.Own σ.host o.1 o.2.slots
  whole : ¬ failed → Whole os σ

/-- What a pass has done to a host, and how outputs stand after it. -/
structure Upholds (failed : Prop) (σ : Stage ω) (failed' : Prop) (os' : Outputs) (σ' : Stage ω) : Prop where
  works : Host.Works (σ.host.rules failed) σ.host σ'.host
  upheld : Upheld failed' os' σ'

/-- A pass works by the rules, and leaves nothing of its outputs elsewhere than where it was put. -/
theorem Carries.attached {R : Rules} {parents : List NodeId} {cs cs' : List InstanceId} {posts posts' : List Post}
    (hquiet : b.Quiet) (hinside : ¬ R.inside) (hfirst : R.first ≤ σ.host.count)
    (hattached : Attached σ.host (linksOf posts)) (hparents : ∀ p ∈ parents, p.index < σ.host.count)
    (hcarries : Carries .loose b parents σ cs posts os' σ' cs' posts') :
    Host.Works R σ.host σ'.host ∧ Attached σ'.host (linksOf posts') := by
  have helements : ∀ n ∈ elementsOf posts, n.index < σ.host.count := fun n hn => by
    obtain ⟨post, hpost, hmark⟩ := mem_elementsOf.mp hn
    exact hattached.made (post.node, n) (List.mem_flatMap.mpr ⟨post, hpost, by simp [hmark, Mark.tops]⟩)
  have hmoves := hcarries.moves hquiet.keepsNodes
    (fun n hn => (List.mem_append.mp hn).elim (hparents n) (helements n)) fun _ _ => trivial
  exact hmoves.attached hquiet hinside hfirst hattached

namespace Whole

theorem perm (h : Whole os σ) (hperm : os.Perm os') : Whole os' σ := by
  obtain ⟨os₁, cs, posts, hos, hrest⟩ := h
  exact ⟨os₁, cs, posts, hos.trans hperm, hrest⟩

/-- A pass that carries posts over works by the rules. -/
theorem carry {R : Rules} {os₁ : Outputs} {parents : List NodeId} {cs cs' : List InstanceId} {posts posts' : List Post}
    (hquiet : b.Quiet)
    (hinside : ¬ R.inside) (hfirst : R.first ≤ σ.host.count) (hattached : Attached σ.host (linksOf posts))
    (hall : ∀ (id : InstanceId) i, σ.instances[id.index]? = some i → i.developed ≠ none → id ∈ cs)
    (hparents : ∀ p ∈ parents, p.index < σ.host.count)
    (hcarries : Carries .loose b parents σ cs posts os₁ σ' cs' posts') (hperm : os₁.Perm os') :
    Host.Works R σ.host σ'.host ∧ Whole os' σ' := by
  obtain ⟨hworks, hattached'⟩ := hcarries.attached hquiet hinside hfirst hattached hparents
  refine ⟨hworks, os₁, cs', posts', hperm, hcarries.retained, hattached', fun id i hpresent hdeveloped => ?_⟩
  by_contra hnot
  have hlt := (Array.getElem?_eq_some_iff.mp hpresent).1
  have hgone : id ∈ cs ∨ σ.instances.size ≤ id.index → False := fun hid =>
    hdeveloped ((hcarries.exchange.gone id hid hlt hnot).2 i hpresent)
  -- a component that was not held before has not been touched, and then it was not mounted
  have hold : id.index < σ.instances.size := Nat.lt_of_not_le fun hle => hgone (.inr hle)
  have hagree : Agree σ'.instances σ.instances id :=
    Eq.symm (hcarries.exchange.agree id hold fun hid => hgone (.inl hid))
  obtain ⟨i', hpresent', hcore⟩ := hagree.some hpresent
  exact hgone (.inl (hall id i' hpresent' (Instance.developed_of_core hcore ▸ hdeveloped)))

end Whole

namespace Upheld

theorem perm (h : Upheld failed os σ) (hperm : os.Perm os') : Upheld failed os' σ :=
  ⟨h.forest, h.safe, fun o ho => h.inside o (hperm.mem_iff.mpr ho), fun o ho => h.own o (hperm.mem_iff.mpr ho),
    fun hnot => (h.whole hnot).perm hperm⟩

/-- What is owned stays so when time goes on. -/
theorem kept {R Q : Rules} (h : Upheld failed os σ) (honward : R.warden.Onward σ σ') :
    ∀ o ∈ os, o.1.index < σ'.host.count ∧ Q.warden.Own σ'.host o.1 o.2.slots := fun o ho =>
  ⟨honward.count (h.inside o ho), Rules.own ((Rules.own (h.own o ho)).onward honward)⟩

/-- A pass that has kept to the rules upholds what is owned after it. -/
theorem after {failed' : Prop} {R : Rules} (h : Upheld failed os σ) (hsafe : R.warden.Safe σ')
    (hworks : Host.Works (σ.host.rules failed) σ.host σ'.host)
    (hos : ∀ o ∈ os', o.1.index < σ'.host.count ∧ (σ'.host.rules failed').warden.Own σ'.host o.1 o.2.slots)
    (hwhole : ¬ failed' → Whole os' σ') : Upholds failed σ failed' os' σ' :=
  ⟨hworks, hworks.forest h.forest, Rules.safe (Nat.le_refl _) hsafe, fun o ho => (hos o ho).1, fun o ho => (hos o ho).2,
    hwhole⟩

/-- One output among others, as long as nothing has failed. -/
theorem single (h : Upheld failed ((p, r) :: os) σ) (hnot : ¬ failed) : ∃ before after cs posts,
    (before ++ after).Perm os ∧ Retained .loose (before ++ (p, r) :: after) σ cs posts ∧
      Attached σ.host (linksOf posts) ∧
      ∀ (id : InstanceId) i, σ.instances[id.index]? = some i → i.developed ≠ none → id ∈ cs := by
  obtain ⟨os', cs, posts, hos, hretained, hattached, hall⟩ := h.whole hnot
  obtain ⟨before, after, rfl⟩ := List.append_of_mem (hos.mem_iff.mpr List.mem_cons_self)
  exact ⟨before, after, cs, posts, (List.perm_middle.symm.trans hos).cons_inv, hretained, hattached, hall⟩

/-- Its nodes are all where they were put. -/
theorem unspoilt (h : Upheld failed ((p, r) :: os) σ) (hnot : ¬ failed) :
    r.Paired ∧ Unspoilt (σ.host.rules failed) σ (.root p) r.sentence.lexems r.slots := by
  obtain ⟨before, after, cs, posts, -, ⟨hpaired, hholds, hnodup, hposted⟩, hattached, -⟩ := h.single hnot
  refine ⟨hpaired (p, r) (by simp), .root (h.inside _ List.mem_cons_self), h.safe, h.own _ List.mem_cons_self, ?_⟩
  obtain ⟨left, right, rfl, -, hright⟩ := hposted.split
  rw [Outputs.slots_append] at hholds
  obtain ⟨outer, rest, rfl, -, hrest⟩ := hholds.split
  rw [Outputs.slots, List.map_cons, slotsOf_cons] at hrest
  obtain ⟨own, others, rfl, hown, -⟩ := hrest.split
  cases hright with
  | cons hcensus =>
  rw [linksOf_append, linksOf_append] at hattached
  exact ⟨own, _, hown, hnodup.sublist (by simp), hcensus, hattached.right.left⟩

theorem lax (h : Upheld failed os σ) : (σ.host.rules failed).lax.warden.Safe σ := Rules.safe (Nat.le_refl _) h.safe

section Passes

variable {e : Engine} {s : Sentence} {err : PassError} {child : InstanceId} (hquiet : b.Quiet)
include hquiet

theorem render (h : Upheld failed os σ) (hp : p.index < σ.host.count) (hpass : e.render b p s σ = .ok r σ') :
    Upholds failed σ failed ((p, r) :: os) σ' := by
  have hguards : (σ.host.rules failed).warden.Guards True σ (e.render b p s) _ :=
    Engine.renderWithin_guards (Rules.hooks hquiet id) _ e σ (.root p) (.new s) (.root hp)
  obtain ⟨honward, hsafe, hown⟩ := hguards.ok h.safe hpass
  refine h.after hsafe honward.host
    (List.forall_mem_cons.mpr ⟨⟨honward.count hp, Rules.own hown⟩, h.kept honward⟩) fun hnot => ?_
  obtain ⟨os', cs, posts, hos, hretained, hattached, hall⟩ := h.whole hnot
  obtain ⟨cs', posts', hcarries⟩ := hretained.render nofun hpass
  exact (Whole.carry (R := σ.host.rules failed) hquiet id (Nat.le_refl _) hattached hall (by simpa using hp) hcarries
    (List.perm_append_comm.trans (hos.cons _))).2

theorem render_failed (h : Upheld failed os σ) (hp : p.index < σ.host.count)
    (hpass : e.render b p s σ = .error (.error err) σ') : Upholds failed σ True os σ' := by
  have hguards : (σ.host.rules failed).warden.Guards True σ (e.render b p s) _ :=
    Engine.renderWithin_guards (Rules.hooks hquiet id) _ e σ (.root p) (.new s) (.root hp)
  obtain ⟨-, honward, hsafe⟩ := hguards.error h.safe hpass
  exact h.after hsafe honward.host (h.kept honward) fun hnot => absurd trivial hnot

theorem diff_guards {R : Rules} (h : Upheld failed ((p, r) :: os) σ) (hinside : ¬ R.inside) (hfailed : R.failed) :
    R.warden.Guards True σ (e.diff b p s r) fun r σ => R.warden.Own σ.host p r.slots :=
  Engine.diffWithin_guards (Rules.drops hfailed) (Rules.hooks hquiet hinside) _ σ e (.root p) (.new s) r
    (.root (h.inside _ List.mem_cons_self)) (Rules.own (h.own _ List.mem_cons_self))

theorem diff (h : Upheld failed ((p, r) :: os) σ) (hpass : e.diff b p s r σ = .ok r' σ') :
    Upholds failed σ failed ((p, r') :: os) σ' := by
  have hguards : (σ.host.rules failed).lax.warden.Guards True σ (e.diff b p s r) _ := diff_guards hquiet h id trivial
  obtain ⟨honward, hsafe, hown⟩ := hguards.ok h.lax hpass
  have hp := h.inside _ List.mem_cons_self
  obtain ⟨hp', hos⟩ := List.forall_mem_cons.mp (h.kept (Q := σ'.host.rules failed) honward)
  have hwhole : ¬ failed → Host.Works (σ.host.rules failed) σ.host σ'.host ∧ Whole ((p, r') :: os) σ' := by
    intro hnot
    obtain ⟨before, after, cs, posts, hperm, hretained, hattached, hall⟩ := h.single hnot
    obtain ⟨cs', posts', hcarries⟩ := hretained.diff nofun hpass nofun
    exact Whole.carry hquiet id (Nat.le_refl _) hattached hall (by simpa using hp) hcarries
      (List.perm_middle.trans (hperm.cons _))
  refine h.after hsafe ?_ (List.forall_mem_cons.mpr ⟨⟨hp'.1, Rules.own hown⟩, hos⟩) fun hnot => (hwhole hnot).2
  by_cases hfailed : failed
  · exact ((diff_guards (R := σ.host.rules failed) hquiet h id hfailed).ok h.safe hpass).1.host
  · exact (hwhole hfailed).1

theorem diff_failed (h : Upheld failed ((p, r) :: os) σ) (hpass : e.diff b p s r σ = .error (.error err) σ') :
    Upholds failed σ True os σ' := by
  have hguards : (σ.host.rules failed).lax.warden.Guards True σ (e.diff b p s r) _ := diff_guards hquiet h id trivial
  obtain ⟨-, honward, hsafe⟩ := hguards.error h.lax hpass
  refine h.after hsafe ?_ (List.forall_mem_cons.mp (h.kept honward)).2 fun hnot => absurd trivial hnot
  by_cases hfailed : failed
  · exact ((diff_guards (R := σ.host.rules failed) hquiet h id hfailed).error h.safe hpass).2.1.host
  · obtain ⟨hpaired, hunspoilt⟩ := h.unspoilt hfailed
    exact Engine.diffWithin_breaks hquiet id _ σ e (.root p) (.new s) r hpaired hunspoilt err σ' hpass

theorem remove_guards {R : Rules} {errs : Prop} (h : Upheld failed ((p, r) :: os) σ) (hinside : ¬ R.inside)
    (hfailed : R.failed) : R.warden.Guards errs σ (Engine.remove b p r) fun _ _ => True :=
  teardown_guards (Rules.drops hfailed) (Rules.hooks hquiet hinside) (h.inside _ List.mem_cons_self)
    (Rules.own (h.own _ List.mem_cons_self))

theorem remove (h : Upheld failed ((p, r) :: os) σ) (hpass : Engine.remove b p r σ = .ok () σ') :
    Upholds failed σ failed os σ' := by
  have hguards : (σ.host.rules failed).lax.warden.Guards True σ (Engine.remove b p r) _ :=
    remove_guards hquiet h id trivial
  obtain ⟨honward, hsafe, -⟩ := hguards.ok h.lax hpass
  have hwhole : ¬ failed → Host.Works (σ.host.rules failed) σ.host σ'.host ∧ Whole os σ' := by
    intro hnot
    obtain ⟨before, after, cs, posts, hperm, hretained, hattached, hall⟩ := h.single hnot
    obtain ⟨cs', posts', hcarries, -⟩ := hretained.remove hpass
    exact Whole.carry hquiet id (Nat.le_refl _) hattached hall (by simpa using h.inside _ List.mem_cons_self) hcarries hperm
  refine h.after hsafe ?_ (List.forall_mem_cons.mp (h.kept honward)).2 fun hnot => (hwhole hnot).2
  by_cases hfailed : failed
  · have hfree : (σ.host.rules failed).warden.Guards True σ (Engine.remove b p r) _ :=
      remove_guards hquiet h id hfailed
    exact (hfree.ok h.safe hpass).1.host
  · exact (hwhole hfailed).1

/-- A removal does not fail. -/
theorem remove_sure (h : Upheld failed ((p, r) :: os) σ) : Engine.remove b p r σ ≠ .error (.error err) σ' := by
  have hguards : (σ.host.rules failed).lax.warden.Guards False σ (Engine.remove b p r) _ :=
    remove_guards hquiet h id trivial
  exact fun hpass => (hguards.error h.lax hpass).1

theorem update_guards {R : Rules} (hinside : ¬ R.inside) (hfailed : R.failed) :
    R.warden.Guards True σ (Engine.updateComponent b child) fun _ _ => True :=
  Engine.update_guards (Engine.diffWithin_guards (Rules.drops hfailed) (Rules.hooks hquiet hinside) _) (Nat.zero_le _)

theorem update (h : Upheld failed os σ) (hpass : Engine.updateComponent b child σ = .ok () σ') :
    Upholds failed σ failed os σ' := by
  have hguards : (σ.host.rules failed).lax.warden.Guards True σ (Engine.updateComponent b child) _ :=
    update_guards hquiet id trivial
  obtain ⟨honward, hsafe, -⟩ := hguards.ok h.lax hpass
  have hwhole : ¬ failed → Host.Works (σ.host.rules failed) σ.host σ'.host ∧ Whole os σ' := by
    intro hnot
    obtain ⟨os', cs, posts, hos, hretained, hattached, hall⟩ := h.whole hnot
    have hheld : child ∈ cs ∨ σ' = σ := by
      cases Engine.update_ok hpass with
      | absent => exact .inr rfl
      | viewed hpresent hdeveloped => exact .inl (hall child _ hpresent (by simp [hdeveloped]))
    rcases hheld with hid | rfl
    · obtain ⟨cs', posts', hcarries⟩ := hretained.update hid hpass (fun _ => id) fun _ _ _ _ _ _ _ _ => nofun
      refine Whole.carry hquiet id (Nat.le_refl _) hattached hall (fun p hp => ?_) hcarries hos
      obtain ⟨o, ho, rfl⟩ := List.mem_map.mp hp
      exact h.inside o (hos.mem_iff.mp ho)
    · exact ⟨.refl _, h.whole hnot⟩
  refine h.after hsafe ?_ (h.kept honward) fun hnot => (hwhole hnot).2
  by_cases hfailed : failed
  · have hfree : (σ.host.rules failed).warden.Guards True σ (Engine.updateComponent b child) _ :=
      update_guards hquiet id hfailed
    exact (hfree.ok h.safe hpass).1.host
  · exact (hwhole hfailed).1

theorem update_failed (h : Upheld failed os σ) (hpass : Engine.updateComponent b child σ = .error (.error err) σ') :
    Upholds failed σ True os σ' := by
  have hguards : (σ.host.rules failed).lax.warden.Guards True σ (Engine.updateComponent b child) _ :=
    update_guards hquiet id trivial
  obtain ⟨-, honward, hsafe⟩ := hguards.error h.lax hpass
  refine h.after hsafe ?_ (h.kept honward) fun hnot => absurd trivial hnot
  by_cases hfailed : failed
  · have hfree : (σ.host.rules failed).warden.Guards True σ (Engine.updateComponent b child) _ :=
      update_guards hquiet id hfailed
    exact (hfree.error h.safe hpass).2.1.host
  · obtain ⟨os', cs, posts, hos, ⟨-, hholds, hnodup, hposted⟩, hattached, hall⟩ := h.whole hfailed
    refine Engine.update_breaks hquiet id (Engine.deeper hquiet id .plain
      (Engine.diffWithin_breaks hquiet id Engine.depthLimit)) h.safe (fun i r hpresent hdeveloped => ?_) err σ' hpass
    have hid := hall child i hpresent (by simp [hdeveloped])
    obtain ⟨q, lexem, outer, own, outer', left, mid, right, rfl, rfl, -, hown, hmid, -⟩ := hposted.zoom hholds hid
    simp only [linksOf_append] at hattached
    have hintact : Intact σ q [lexem] [.component child] :=
      ⟨own, mid, hown, hnodup.sublist (by simp), hmid, hattached.left.right⟩
    obtain ⟨hparent, hpaired, houtput⟩ := hintact.output hpresent hdeveloped
    exact ⟨hpaired, hparent ▸ houtput⟩

end Passes

end Upheld

end Parlance
