import Parlance.Proofs.Engine.Shift

/-! What tables agree about while a pass goes on: two stretches side by side leave each other's components alone, and a
component that is mounted or rendered again is closed while its output is made, and comes back afterwards as it was. -/

namespace Parlance

variable {ω : Type} {b : Behaviour ω} {σ σ₁ σ' : Stage ω} {cs : List InstanceId}

theorem Turn.same {slots : List Slot} (hsame : σ'.instances = σ.instances) : Turn (blind b) σ slots σ' slots :=
  .keep (congrArg Array.size hsame) (fun id => by rw [Agree, hsame]) ⟨fun _ _ _ => trivial, fun _ => trivial⟩

theorem Renewal.same {rs : List Rendered} (hsame : σ'.instances = σ.instances) : Renewal (blind b) σ rs σ' rs :=
  fun hpaired => ⟨hpaired, .same hsame⟩

/-- Two stretches of a pass side by side, one after the other: neither touches what the other one holds. -/
theorem Turn.abreast {slots slots' slots₂ slots₂' : List Slot} (h : Turn (blind b) σ slots σ₁ slots')
    (h' : Turn (blind b) σ₁ slots₂ σ' slots₂') (hholds : Holds σ.instances (slots ++ slots₂) cs) (hnodup : cs.Nodup) :
    ∃ as cs₂ as' cs₂', cs = as ++ cs₂ ∧ (as.Nodup ∧ cs₂.Nodup) ∧
      (Holds σ.instances slots as ∧ Holds σ₁.instances slots' as') ∧
      (Holds σ.instances slots₂ cs₂ ∧ Holds σ'.instances slots₂' cs₂') ∧
      (∀ id ∈ cs₂, Agree σ.instances σ₁.instances id) ∧ ∀ id ∈ as', Agree σ₁.instances σ'.instances id := by
  obtain ⟨as, cs₂, rfl, ha, hc⟩ := hholds.split
  obtain ⟨hnodupA, hnodupC, hdisjoint⟩ := List.nodup_append.mp hnodup
  obtain ⟨as', ha', hexchange⟩ := h as ha (mounted_blind hnodupA)
  have hagree : ∀ id ∈ cs₂, Agree σ.instances σ₁.instances id := fun id hid =>
    hexchange.agree id (hc.index_lt id hid) fun hmem => hdisjoint id hmem id hid rfl
  obtain ⟨cs₂', hc', hexchange'⟩ := h' cs₂ (hc.congr hagree) (mounted_blind hnodupC)
  refine ⟨as, cs₂, as', cs₂', rfl, ⟨hnodupA, hnodupC⟩, ⟨ha, ha'⟩, ⟨hc, hc'⟩, hagree, fun id hid => ?_⟩
  refine hexchange'.agree id (ha'.index_lt id hid) fun hmem => ?_
  rcases hexchange.source id hid with hold | hnew
  · exact hdisjoint id hold id hmem rfl
  · exact absurd (hc.index_lt id hmem) (Nat.not_lt.mpr hnew)

/-- The same with something between the two stretches, that has its turn between theirs. -/
theorem Turn.around {σ₂ : Stage ω} {slots slots' own own' slots₂ slots₂' : List Slot}
    (h : Turn (blind b) σ slots σ₁ slots') (hown : Turn (blind b) σ₁ own σ₂ own')
    (h' : Turn (blind b) σ₂ slots₂ σ' slots₂') (hholds : Holds σ.instances (slots ++ (own ++ slots₂)) cs)
    (hnodup : cs.Nodup) :
    ∃ as cs₂ as' cs₂', (as.Nodup ∧ cs₂.Nodup) ∧
      (Holds σ.instances slots as ∧ Holds σ₁.instances slots' as') ∧
      (Holds σ.instances slots₂ cs₂ ∧ Holds σ'.instances slots₂' cs₂') ∧
      (∀ id ∈ cs₂, Agree σ.instances σ₂.instances id) ∧ ∀ id ∈ as', Agree σ₁.instances σ'.instances id := by
  have hrest : Turn (blind b) σ₁ (own ++ slots₂) σ' (own' ++ slots₂') := (hown.append_right _).trans (h'.append_left _)
  obtain ⟨as, rest, as', -, rfl, ⟨hnodupA, hnodupRest⟩, hheldA, ⟨hheldRest, -⟩, hagree, hagree'⟩ :=
    h.abreast hrest hholds hnodup
  obtain ⟨ids, cs₂, rfl, hheldOwn, hheld⟩ := hheldRest.split
  have hheld₁ : Holds σ₁.instances slots₂ cs₂ := hheld.congr fun id hid => hagree id (List.mem_append_right _ hid)
  obtain ⟨_, cs₂', _, cs₃, -, ⟨-, hnodup₂⟩, -, ⟨hheld₂, hheld'⟩, hagree₂, -⟩ := hown.abreast h'
    ((hheldOwn.congr fun id hid => hagree id (List.mem_append_left _ hid)).append hheld₁) hnodupRest
  obtain rfl := hheld₁.unique hheld₂
  exact ⟨as, _, as', cs₃, ⟨hnodupA, hnodup₂⟩, hheldA, ⟨hheld, hheld'⟩,
    fun id hid => (hagree id (List.mem_append_right _ hid)).trans (hagree₂ id hid), hagree'⟩

variable {diff : Engine → Cursor → Phrase → Rendered → Pass ω Rendered} {id : InstanceId}

/-- A component that is rendered again: its output is diffed while it has none in the table, and what is inside is not
touched by that. Afterwards it is as it was, with the new output. -/
theorem Engine.UpdateStep.opens (hdiffs : Diffs (Watch.blind b) diff) (h : Engine.UpdateStep b diff id σ σ')
    (hholds : Holds σ.instances [.component id] cs) (hnodup : cs.Nodup) :
    ∃ (i j : Instance) (previous next : Rendered) (s : Sentence) (w : ω) (σ₁ : Stage ω)
      (inner inner' : List InstanceId), σ.instances[id.index]? = some i ∧ i.developed = some previous ∧ previous.Paired ∧
      (Holds σ.instances previous.slots inner ∧ inner.Nodup) ∧
      (∀ child ∈ inner, Agree σ.instances (σ.onInstance id fun i => { i with developed := none }).instances child) ∧
      diff i.engine ⟨i.parent, i.witness, some id⟩ (.new s) previous
        ((σ.onInstance id fun i => { i with developed := none }).inWorld w) = .ok next σ₁ ∧
      σ' = σ₁.onInstance id (fun i => { i with developed := some next }) ∧ next.Paired ∧
      Holds σ₁.instances next.slots inner' ∧ (∀ child ∈ inner', Agree σ₁.instances σ'.instances child) ∧
      σ'.instances[id.index]? = some j ∧ j.developed = some next ∧
      (j.engine = i.engine ∧ j.parent = i.parent ∧ j.witness = i.witness) := by
  obtain ⟨i, previous, inner, rfl, hpresent, hdeveloped, hpaired, hlater, hinner⟩ := hholds.of_component
  cases h with
  | absent habsent => simp [habsent] at hpresent
  | @viewed i₁ previous₁ next s w σ₁ hpresent₁ hdeveloped₁ hview hrun =>
  cases hpresent.symm.trans hpresent₁
  cases hdeveloped.symm.trans hdeveloped₁
  have hnotin : id ∉ inner := fun hchild => absurd (hlater id hchild) (Nat.lt_irrefl _)
  have hlt := (Array.getElem?_eq_some_iff.mp hpresent).1
  have hnodupInner : inner.Nodup := hnodup.sublist (List.sublist_append_left _ _)
  have hagree : ∀ child ∈ inner, Agree σ.instances (σ.instances.modify id.index fun i =>
      { i with developed := none }) child := fun child hchild => agree_modify _ _ fun heq => hnotin (heq ▸ hchild)
  obtain ⟨hpaired', hturn⟩ := hdiffs hrun (by simpa using hpaired)
  simp only [slotsOf_cons, slotsOf_nil, List.append_nil] at hturn
  obtain ⟨inner', hinner', hexchange⟩ := hturn inner (hinner.congr hagree) (mounted_blind hnodupInner)
  have hnotin' : id ∉ inner' := fun hchild => by
    rcases hexchange.source id hchild with hold | hlate
    · exact hnotin hold
    · rw [Stage.inWorld_instances, Stage.onInstance_instances, Array.size_modify] at hlate
      omega
  have hagree' : ∀ child ∈ inner', Agree σ₁.instances (σ₁.instances.modify id.index fun i =>
      { i with developed := some next }) child := fun child hchild => agree_modify _ _ fun heq => hnotin' (heq ▸ hchild)
  obtain ⟨i', hpresent', hcore⟩ := (hexchange.agree id (by simpa using hlt) hnotin).some
    (show (σ.instances.modify id.index _)[id.index]? = some _ by
      rw [Array.getElem?_modify, if_pos rfl, hpresent, Option.map_some])
  have hhere : (σ₁.instances.modify id.index fun i => { i with developed := some next })[id.index]? =
      some { i' with developed := some next } := by
    rw [Array.getElem?_modify, if_pos rfl, hpresent', Option.map_some]
  have hengine : i'.engine = i.engine := by
    have heq := congrArg Instance.engine hcore
    exact heq
  exact ⟨i, _, previous, next, s, w, σ₁, inner, inner', hpresent, hdeveloped, hpaired, ⟨hinner, hnodupInner⟩, hagree,
    hrun, rfl, hpaired' next List.mem_cons_self, hinner', hagree', hhere, rfl, hengine,
    (Placed.parent_of_core hcore).trans rfl, (Placed.witness_of_core hcore).trans rfl⟩

variable {render : Cursor → Phrase → Pass ω Rendered} {e : Engine} {c' : Cursor} {p : NodeId} {r : Rendered}
variable {factory : Factory} {s : Sentence} {w : ω}

/-- A component that is mounted: its output is made while it stands in the table without one. -/
theorem mount_opens (witness : NodeId) (hrenders : Renders (Watch.blind b) render)
    (h : render c' (.new s) ⟨σ.host, σ.instances.push ⟨factory, e, p, none, none, []⟩, w⟩ = .ok r σ') :
    ∃ (j : Instance) (inner : List InstanceId), r.Paired ∧ Holds σ'.instances r.slots inner ∧
      (∀ child ∈ inner, Agree σ'.instances (σ'.onInstance ⟨σ.instances.size⟩ fun i =>
        { i with developed := some r, witness := some witness }).instances child) ∧
      (σ'.onInstance ⟨σ.instances.size⟩ fun i =>
        { i with developed := some r, witness := some witness }).instances[σ.instances.size]? = some j ∧
      j.developed = some r ∧ j.witness = some witness ∧ j.engine = e ∧ j.parent = p := by
  obtain ⟨hpaired, hturn⟩ := hrenders h (by simp)
  simp only [slotsOf_cons, slotsOf_nil, List.append_nil] at hturn
  obtain ⟨inner, hinner, hexchange⟩ := hturn [] .nil (mounted_blind List.nodup_nil)
  have hnotin : (⟨σ.instances.size⟩ : InstanceId) ∉ inner := fun hchild => by
    rcases hexchange.source _ hchild with hold | hlate
    · simp at hold
    · rw [Array.size_push] at hlate
      exact Nat.lt_irrefl _ hlate
  obtain ⟨i, hpresent, hcore⟩ := (hexchange.agree ⟨σ.instances.size⟩ (by simp) (by simp)).some
    (show _ = some _ from Array.getElem?_push_size)
  have hengine : i.engine = e := by
    have heq := congrArg Instance.engine hcore
    exact heq
  refine ⟨{ i with developed := some r, witness := some witness }, inner, hpaired r List.mem_cons_self, hinner,
    fun child hchild => agree_modify _ _ fun heq => hnotin (heq ▸ hchild), ?_, rfl, rfl, hengine,
    (Placed.parent_of_core hcore).trans rfl⟩
  rw [Stage.onInstance_instances, Array.getElem?_modify, if_pos rfl, hpresent, Option.map_some]

end Parlance
