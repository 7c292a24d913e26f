import Parlance.Engine.Output
import Parlance.Proofs.Engine.Progress
import Parlance.Proofs.Engine.Words

/-! Outputs that are retained from pass to pass. Each stands under a parent of its own, no two of them hold the same
component, and a pass on one of them, or on a component in one of them, is a row of moves of all their posts. -/

namespace Parlance

open Pass

/-- Outputs with the parents that they stand under. -/
abbrev Outputs := List (NodeId × Rendered)

namespace Outputs

def slots (os : Outputs) : List Slot := slotsOf (os.map (·.2))

/-- The words of outputs at any depth, each with the node that it is carried out on. -/
def words (table : Array Instance) (os : Outputs) : List (NodeId × Lexem) := os.flatMap fun o => o.2.words table o.1

/-- Outputs that stand under one parent. -/
def under (p : NodeId) (rs : List Rendered) : Outputs := rs.map (p, ·)

variable {os os' : Outputs} {p : NodeId} {rs : List Rendered}

@[simp] theorem slots_append : slots (os ++ os') = slots os ++ slots os' := by
  rw [slots, List.map_append, slotsOf_append, slots, slots]

@[simp] theorem slots_under : slots (under p rs) = slotsOf rs := by
  rw [slots, under, List.map_map]
  exact congrArg slotsOf (List.map_id rs)

end Outputs

variable {ω : Type} {ρ : Regime} {b : Behaviour ω} {t t' : Array Instance} {os os' before after : Outputs}
variable {p : NodeId} {rs rs' : List Rendered} {cs : List InstanceId} {posts : List Post}

/-- The posts of outputs. -/
inductive Posted (ρ : Regime) (t : Array Instance) : Outputs → List Post → Prop
  | nil : Posted ρ t [] []
  | cons {p : NodeId} {r : Rendered} {os : Outputs} {own rest : List Post}
      (hown : Census ρ t p r.sentence.lexems r.slots own) (hrest : Posted ρ t os rest) :
      Posted ρ t ((p, r) :: os) (own ++ rest)

namespace Posted

theorem append {posts' : List Post} (h : Posted ρ t os posts) (h' : Posted ρ t os' posts') :
    Posted ρ t (os ++ os') (posts ++ posts') := by
  induction h with
  | nil => exact h'
  | cons hown _ ih =>
      rw [List.cons_append, List.append_assoc]
      exact .cons hown ih

theorem split (h : Posted ρ t (os ++ os') posts) :
    ∃ left right, posts = left ++ right ∧ Posted ρ t os left ∧ Posted ρ t os' right := by
  induction os generalizing posts with
  | nil => exact ⟨[], posts, rfl, .nil, h⟩
  | cons o os ih =>
      cases h with
      | cons hown hrest =>
      obtain ⟨left, right, rfl, hleft, hright⟩ := ih hrest
      exact ⟨_, right, by rw [List.append_assoc], .cons hown hleft, hright⟩

theorem census (h : Posted ρ t (.under p rs) posts) : Census ρ t p (lexemsOf rs) (slotsOf rs) posts := by
  induction rs generalizing posts with
  | nil =>
      cases h
      exact .nil
  | cons r rs ih =>
      cases h with
      | cons hown hrest =>
      rw [lexemsOf_cons, slotsOf_cons]
      exact hown.append (ih hrest)

theorem of_census (hpaired : ∀ r ∈ rs, r.Paired) (h : Census ρ t p (lexemsOf rs) (slotsOf rs) posts) :
    Posted ρ t (.under p rs) posts := by
  induction rs generalizing posts with
  | nil =>
      cases h
      exact .nil
  | cons r rs ih =>
      rw [lexemsOf_cons, slotsOf_cons] at h
      obtain ⟨own, rest, rfl, hown, hrest⟩ := h.split (hpaired r List.mem_cons_self).symm
      exact .cons hown (ih (fun r' hr' => hpaired r' (List.mem_cons_of_mem _ hr')) hrest)

theorem congr (h : Posted ρ t os posts) (hholds : Holds t os.slots cs) (hagree : ∀ id ∈ cs, Agree t t' id) :
    Posted ρ t' os posts := by
  induction h generalizing cs with
  | nil => exact .nil
  | cons hown _ ih =>
      obtain ⟨own, rest, rfl, hfirst, hsecond⟩ := hholds.split
      exact .cons (hown.congr hfirst fun id hid => hagree id (List.mem_append_left _ hid))
        (ih hsecond fun id hid => hagree id (List.mem_append_right _ hid))

theorem words (h : Posted ρ t os posts) (hholds : Holds t os.slots cs) : os.words t = posts.map Post.word := by
  induction h generalizing cs with
  | nil => rfl
  | cons hown _ ih =>
      obtain ⟨own, rest, rfl, hfirst, hsecond⟩ := hholds.split
      rw [Outputs.words, List.flatMap_cons, List.map_append, hown.words hfirst]
      exact congrArg _ (ih hsecond)

/-- A component that is held somewhere can be given other posts. -/
theorem zoom {id : InstanceId} (h : Posted ρ t os posts) (hholds : Holds t os.slots cs) (hid : id ∈ cs) :
    ∃ q lexem outer own outer' left mid right, cs = outer ++ own ++ outer' ∧ posts = left ++ mid ++ right ∧
      (q ∈ os.map (·.1) ∨ q ∈ elementsOf posts) ∧ Holds t [.component id] own ∧
      Census ρ t q [lexem] [.component id] mid ∧
      ∀ (t' : Array Instance) (mid' : List Post), Census ρ t' q [lexem] [.component id] mid' →
        (∀ x ∈ outer ++ outer', Agree t t' x) → Posted ρ t' os (left ++ mid' ++ right) := by
  induction h generalizing cs with
  | nil =>
      cases hholds
      simp at hid
  | @cons p r os first rest hown hrest ih =>
      obtain ⟨ids, ids', rfl, hfirst, hsecond⟩ := hholds.split
      rcases List.mem_append.mp hid with hid | hid
      · obtain ⟨q, lexem, outer, own, outer', left, mid, right, rfl, rfl, hq, hcomponent, hmid, hreplace⟩ :=
          hown.zoom hfirst hid
        refine ⟨q, lexem, outer, own, outer' ++ ids', left, mid, right ++ rest, by simp, by simp, ?_, hcomponent,
          hmid, fun t' mid' hmid' hagree => ?_⟩
        · rw [elementsOf_append]
          exact hq.imp (fun heq => by simp [heq]) fun hmem => List.mem_append_left _ hmem
        · have hboth : Posted ρ t' ((p, r) :: os) ((left ++ mid' ++ right) ++ rest) :=
            .cons (hreplace t' mid' hmid' fun x hx => hagree x (by grind))
              (hrest.congr hsecond fun x hx => hagree x (by simp [hx]))
          simpa using hboth
      · obtain ⟨q, lexem, outer, own, outer', left, mid, right, rfl, rfl, hq, hcomponent, hmid, hreplace⟩ :=
          ih hsecond hid
        refine ⟨q, lexem, ids ++ outer, own, outer', first ++ left, mid, right, by simp, by simp, ?_, hcomponent,
          hmid, fun t' mid' hmid' hagree => ?_⟩
        · rw [elementsOf_append]
          exact hq.imp (fun hmem => List.mem_cons_of_mem _ hmem) fun hmem => List.mem_append_right _ hmem
        · have hboth : Posted ρ t' ((p, r) :: os) (first ++ (left ++ mid' ++ right)) :=
            .cons (hown.congr hfirst fun x hx => hagree x (by simp [hx]))
              (hreplace t' mid' hmid' fun x hx => hagree x (by grind))
          simpa using hboth

end Posted

variable (ρ) in
/-- Outputs as they are retained between two passes, with the components that they hold and with their posts. -/
structure Retained (os : Outputs) (σ : Stage ω) (cs : List InstanceId) (posts : List Post) : Prop where
  paired : ∀ o ∈ os, o.2.Paired
  holds : Holds σ.instances os.slots cs
  nodup : cs.Nodup
  posted : Posted ρ σ.instances os posts

variable (ρ b) in
/-- A pass on outputs under some parents, after which outputs are retained, by moves that take the posts from before to
those of now. Every hook gets its turn. -/
structure Carries (parents : List NodeId) (σ : Stage ω) (cs : List InstanceId) (posts : List Post) (os' : Outputs)
    (σ' : Stage ω) (cs' : List InstanceId) (posts' : List Post) : Prop where
  retained : Retained ρ os' σ' cs' posts'
  exchange : Exchange (blind b) σ cs σ' cs'
  moves : b.KeepsNodes → (∀ n ∈ parents ++ elementsOf posts, n.index < σ.host.count) → ρ.Allowed posts' →
    Moves ρ b σ posts σ' posts'
  attends : Attends ρ b σ.world posts σ'.world posts'

namespace Retained

variable {σ σ' : Stage ω} {goal : List NodeId → Prop} {e : Engine} {s : Sentence} {r r' : Rendered}

theorem empty (σ : Stage ω) : Retained ρ [] σ [] [] := ⟨by simp, .nil, List.nodup_nil, .nil⟩

theorem words_eq (h : Retained ρ os σ cs posts) : os.words σ.instances = posts.map Post.word := h.posted.words h.holds

/-- An evolution of some of the outputs is a pass. -/
theorem evolve (h : Retained ρ (before ++ .under p rs ++ after) σ cs posts)
    (hevolves : EvolvesAll ρ b p goal σ rs σ' rs')
    (hfollows : ρ.Follows σ.instances (lexemsOf rs) (slotsOf rs) σ'.instances (lexemsOf rs') (slotsOf rs'))
    (hgoal : ∀ right, (after = [] → right = []) → goal (topsAt p right)) :
    ∃ cs' posts', Carries ρ b [p] σ cs posts (before ++ .under p rs' ++ after) σ' cs' posts' ∧
      (rs' = [] → ∀ post ∈ posts', post ∈ posts) := by
  have hholds := h.holds
  simp only [Outputs.slots_append, Outputs.slots_under] at hholds
  obtain ⟨outer, ids', rfl, houter, hlast⟩ := hholds.split
  obtain ⟨ids, own, rfl, hfirst, hown⟩ := houter.split
  obtain ⟨inner, right, rfl, hinner, hright⟩ := h.posted.split
  obtain ⟨left, mid, rfl, hleft, hmid⟩ := hinner.split
  have hpaired : ∀ r ∈ rs, r.Paired := fun r hr => h.paired (p, r) (by simp [Outputs.under, hr])
  obtain ⟨hpaired', hturn⟩ := hevolves.renewal hpaired
  have hownNodup : own.Nodup := h.nodup.sublist (by simp)
  obtain ⟨own', hown', hexchange⟩ := hturn own hown (mounted_blind hownNodup)
  have hbound : ∀ id ∈ ids ++ ids', id.index < σ.instances.size := fun id hid =>
    h.holds.index_lt id (by simp only [List.mem_append] at hid ⊢; tauto)
  have hagree : ∀ id ∈ ids ++ ids', Agree σ.instances σ'.instances id := fun id hid =>
    hexchange.agree id (hbound id hid) (not_mem_between h.nodup id hid)
  have hframed := hexchange.frame (mounted_blind h.nodup) hbound
  obtain ⟨mid', hcensus', hmoves, hattends⟩ :=
    (hevolves.evolves hpaired).moves hown hownNodup hmid.census hfollows
  have hposted' : Posted ρ σ'.instances (before ++ .under p rs' ++ after) (left ++ mid' ++ right) :=
    ((hleft.congr hfirst fun id hid => hagree id (List.mem_append_left _ hid)).append
      (.of_census hpaired' hcensus')).append (hright.congr hlast fun id hid => hagree id (List.mem_append_right _ hid))
  have hholds' : Holds σ'.instances (Outputs.slots (before ++ .under p rs' ++ after)) (ids ++ own' ++ ids') := by
    simp only [Outputs.slots_append, Outputs.slots_under]
    exact ((hfirst.congr fun id hid => hagree id (List.mem_append_left _ hid)).append hown').append
      (hlast.congr fun id hid => hagree id (List.mem_append_right _ hid))
  refine ⟨_, _, ⟨⟨fun o ho => ?_, hholds', hframed.mounted.nodup, hposted'⟩, hframed,
    fun hnodes hinside hallowed => ?_, (Attends.refl.append hattends).append .refl⟩, ?_⟩
  · simp only [List.mem_append, Outputs.under, List.mem_map] at ho
    rcases ho with (ho | ⟨r, hr, rfl⟩) | ho
    · exact h.paired o (by simp [ho])
    · exact hpaired' r hr
    · exact h.paired o (by simp [ho])
  · refine hmoves hnodes hallowed.split.1.split.2 left right
      ⟨hinside p (by simp), fun n hn => hinside n (by simp [hn])⟩ fun _ => ?_
    refine hgoal right fun hafter => ?_
    subst hafter
    cases hright
    rfl
  · rintro rfl post hpost
    cases hcensus'
    simp only [List.append_nil, List.mem_append] at hpost ⊢
    exact hpost.imp_left .inl

/-- A rendering at the end of a parent. -/
theorem render (h : Retained ρ os σ cs posts) (hadmits : ρ.Admits e) (hpass : e.render b p s σ = .ok r σ') :
    ∃ cs' posts', Carries ρ b [p] σ cs posts (os ++ [(p, r)]) σ' cs' posts' := by
  have hevolves : EvolvesAll ρ b p (Ahead none) σ [] σ' [r] := renderWithin_evolves hadmits hpass
  have hnow : Retained ρ (os ++ .under p [] ++ []) σ cs posts := by simpa [Outputs.under] using h
  obtain ⟨cs', posts', hcarries, -⟩ := hnow.evolve hevolves .fresh fun right hright => by rw [hright rfl]; rfl
  exact ⟨cs', posts', by simpa [Outputs.under] using hcarries⟩

/-- A diff of an output under its parent. -/
theorem diff (h : Retained ρ (before ++ (p, r) :: after) σ cs posts) (hadmits : ρ.Admits e)
    (hpass : e.diff b p s r σ = .ok r' σ')
    (hfollows : ρ.Follows σ.instances r.sentence.lexems r.slots σ'.instances r'.sentence.lexems r'.slots) :
    ∃ cs' posts', Carries ρ b [p] σ cs posts (before ++ (p, r') :: after) σ' cs' posts' := by
  have hevolves : EvolvesAll ρ b p (fun _ => True) σ [r] σ' [r'] := (diffWithin_evolves hadmits hpass).2
  have hnow : Retained ρ (before ++ .under p [r] ++ after) σ cs posts := by simpa [Outputs.under] using h
  have hfollows' : ρ.Follows σ.instances (lexemsOf [r]) (slotsOf [r]) σ'.instances (lexemsOf [r']) (slotsOf [r']) := by
    simpa using hfollows
  obtain ⟨cs', posts', hcarries, -⟩ := hnow.evolve hevolves hfollows' fun _ _ => trivial
  exact ⟨cs', posts', by simpa [Outputs.under] using hcarries⟩

/-- A removal of an output from its parent. -/
theorem remove (h : Retained ρ (before ++ (p, r) :: after) σ cs posts) (hpass : Engine.remove b p r σ = .ok () σ') :
    ∃ cs' posts', Carries ρ b [p] σ cs posts (before ++ after) σ' cs' posts' ∧ ∀ post ∈ posts', post ∈ posts := by
  have hevolves : EvolvesAll ρ b p (fun _ => True) σ [r] σ' [] := teardown_evolves hpass
  have hnow : Retained ρ (before ++ .under p [r] ++ after) σ cs posts := by simpa [Outputs.under] using h
  obtain ⟨cs', posts', hcarries, hsub⟩ := hnow.evolve hevolves .gone fun _ _ => trivial
  exact ⟨cs', posts', by simpa [Outputs.under] using hcarries, hsub rfl⟩

/-- An update of a component that is held. -/
theorem update (h : Retained ρ os σ cs posts)
    {id : InstanceId} (hid : id ∈ cs) (hpass : Engine.updateComponent b id σ = .ok () σ')
    (hsame : ∀ lexem, ρ.follows lexem lexem)
    (hfollows : ∀ i r i' r', σ.instances[id.index]? = some i → i.developed = some r → σ'.instances[id.index]? = some i' →
      i'.developed = some r' →
      ρ.Follows σ.instances r.sentence.lexems r.slots σ'.instances r'.sentence.lexems r'.slots) :
    ∃ cs' posts', Carries ρ b (os.map (·.1)) σ cs posts os σ' cs' posts' := by
  obtain ⟨ids, own, ids', rfl, hown, hreplace⟩ := h.holds.zoom hid
  obtain ⟨q, lexem, outer, own₁, outer', left, mid, right, hcs, rfl, hq, hown₁, hmid, hposted⟩ :=
    h.posted.zoom h.holds hid
  obtain rfl := hown.unique hown₁
  have hevolves : Evolves ρ b q (fun _ => True) σ [lexem] [.component id] σ' [lexem] [.component id] :=
    update_evolves diffWithin_evolves (diffWithin_renewal (Watch.blind b)) (fun hsuits => hsuits)
      (Engine.update_ok hpass)
  have hownNodup : own.Nodup := h.nodup.sublist (by simp)
  obtain ⟨own', hown', hexchange⟩ := hevolves.turn own hown (mounted_blind hownNodup)
  have hbound : ∀ x ∈ ids ++ ids', x.index < σ.instances.size := fun x hx =>
    h.holds.index_lt x (by simp only [List.mem_append] at hx ⊢; tauto)
  have hbound₁ : ∀ x ∈ outer ++ outer', x.index < σ.instances.size := fun x hx =>
    h.holds.index_lt x (by rw [hcs]; simp only [List.mem_append] at hx ⊢; tauto)
  have hframed := hexchange.frame (mounted_blind h.nodup) hbound
  have hcomponent : ρ.Follows σ.instances [lexem] [.component id] σ'.instances [lexem] [.component id] := by
    intro e he
    refine .cons (hsame lexem) (fun _ => .gone) ?_ .gone
    rintro id' i r i' r' ⟨⟩ - hpresent hdeveloped hpresent' hdeveloped'
    exact hfollows i r i' r' hpresent hdeveloped hpresent' hdeveloped' e he
  obtain ⟨mid', hmid', hmoves, hattends⟩ := hevolves.moves hown hownNodup hmid hcomponent
  have hholds' := hreplace σ'.instances own' hown'
    (fun x hx => hexchange.agree x (hbound x hx) (not_mem_between h.nodup x hx)) hexchange.source
  have hposted' := hposted σ'.instances mid' hmid' fun x hx =>
    hexchange.agree x (hbound₁ x hx) (not_mem_between (hcs ▸ h.nodup) x hx)
  refine ⟨_, _, ⟨h.paired, hholds', hframed.mounted.nodup, hposted'⟩, hframed, fun hnodes hinside hallowed => ?_,
    (Attends.refl.append hattends).append .refl⟩
  exact hmoves hnodes hallowed.split.1.split.2 left right
    ⟨hinside q (List.mem_append.mpr hq), fun n hn => hinside n (by simp [hn])⟩ fun _ => trivial

end Retained

variable (ρ b) in
/-- A run of successful passes of an engine, with the outputs that are retained. Between two passes the host and the
world may change in some ways, and the table of components does not. -/
inductive Run (between : Host → ω → Host → ω → Prop) (σ₀ : Stage ω) : Outputs → Stage ω → Prop
  | start : Run between σ₀ [] σ₀
  | between {os : Outputs} {σ : Stage ω} {h : Host} {w : ω} (hrun : Run between σ₀ os σ)
      (hbetween : between σ.host σ.world h w) : Run between σ₀ os ⟨h, σ.instances, w⟩
  | render {os : Outputs} {σ σ' : Stage ω} {e : Engine} {p : NodeId} {s : Sentence} {r : Rendered}
      (hrun : Run between σ₀ os σ) (hadmits : ρ.Admits e) (hp : p.index < σ.host.count)
      (hpass : e.render b p s σ = .ok r σ')
      (hallows : ∀ w ∈ Outputs.words σ'.instances (os ++ [(p, r)]), ρ.allows w.1 w.2) :
      Run between σ₀ (os ++ [(p, r)]) σ'
  | diff {before after : Outputs} {σ σ' : Stage ω} {e : Engine} {p : NodeId} {s : Sentence} {r r' : Rendered}
      (hrun : Run between σ₀ (before ++ (p, r) :: after) σ) (hadmits : ρ.Admits e)
      (hpass : e.diff b p s r σ = .ok r' σ')
      (hfollows : ρ.Follows σ.instances r.sentence.lexems r.slots σ'.instances r'.sentence.lexems r'.slots)
      (hallows : ∀ w ∈ Outputs.words σ'.instances (before ++ (p, r') :: after), ρ.allows w.1 w.2) :
      Run between σ₀ (before ++ (p, r') :: after) σ'
  | update {os : Outputs} {σ σ' : Stage ω} {id : InstanceId} (hrun : Run between σ₀ os σ)
      (hid : Reachable σ.instances os.slots id) (hpass : Engine.updateComponent b id σ = .ok () σ')
      (hfollows : ∀ i r i' r', σ.instances[id.index]? = some i → i.developed = some r →
        σ'.instances[id.index]? = some i' → i'.developed = some r' →
        ρ.Follows σ.instances r.sentence.lexems r.slots σ'.instances r'.sentence.lexems r'.slots)
      (hallows : ∀ w ∈ Outputs.words σ'.instances os, ρ.allows w.1 w.2) : Run between σ₀ os σ'
  | remove {before after : Outputs} {σ σ' : Stage ω} {p : NodeId} {r : Rendered}
      (hrun : Run between σ₀ (before ++ (p, r) :: after) σ) (hpass : Engine.remove b p r σ = .ok () σ') :
      Run between σ₀ (before ++ after) σ'

variable (ρ) in
/-- What holds between two passes: outputs are retained under nodes of the host, their words are allowed, and their
posts keep an invariant. -/
structure Sustained (I : Stage ω → List Post → Prop) (os : Outputs) (σ : Stage ω) (cs : List InstanceId)
    (posts : List Post) : Prop where
  retained : Retained ρ os σ cs posts
  grounded : ∀ o ∈ os, o.1.index < σ.host.count
  allowed : ρ.Allowed posts
  kept : I σ posts

variable {between : Host → ω → Host → ω → Prop} {σ₀ σ σ' : Stage ω} {I : Stage ω → List Post → Prop} {cs' : List InstanceId}
variable {posts' : List Post}

/-- The words of allowed outputs are those of allowed posts. -/
theorem Retained.allowed (h : Retained ρ os σ cs posts) (hallows : ∀ w ∈ os.words σ.instances, ρ.allows w.1 w.2) :
    ρ.Allowed posts := fun post hpost =>
  hallows post.word (h.words_eq ▸ List.mem_map_of_mem hpost)

section Invariants

variable (hmove : ∀ {σ posts σ' posts'}, Move ρ b σ posts σ' posts' → I σ posts → I σ' posts')
variable (helements : ∀ {σ posts}, I σ posts → ∀ n ∈ elementsOf posts, n.index < σ.host.count)
include hmove helements

/-- A pass keeps what every move keeps. -/
theorem Sustained.carry {parents : List NodeId} (h : Sustained ρ I os σ cs posts) (hnodes : b.KeepsNodes)
    (hcarries : Carries ρ b parents σ cs posts os' σ' cs' posts') (hparents : ∀ p ∈ parents, p.index < σ.host.count)
    (hgrounded : ∀ o ∈ os', o.1.index < σ.host.count) (hallowed : ρ.Allowed posts') :
    Sustained ρ I os' σ' cs' posts' := by
  have hmoves := hcarries.moves hnodes
    (fun n hn => (List.mem_append.mp hn).elim (hparents n) (helements h.kept n)) hallowed
  exact ⟨hcarries.retained, fun o ho => Nat.lt_of_lt_of_le (hgrounded o ho) hmoves.count_le, hallowed,
    hmoves.preserves hmove h.kept⟩

/-- A run keeps what every move keeps, and what happens between two passes. -/
theorem Run.sustained (hnodes : b.KeepsNodes) (hsame : ∀ lexem, ρ.follows lexem lexem)
    (hcount : ∀ {h w h' w'}, between h w h' w' → h.count ≤ h'.count)
    (hbetween : ∀ {σ : Stage ω} {posts h w}, between σ.host σ.world h w → I σ posts → I ⟨h, σ.instances, w⟩ posts)
    (hstart : I σ₀ []) (h : Run ρ b between σ₀ os σ) : ∃ cs posts, Sustained ρ I os σ cs posts := by
  induction h with
  | start => exact ⟨[], [], .empty σ₀, by simp, by simp [Regime.Allowed], hstart⟩
  | between _ hstep ih =>
      obtain ⟨cs, posts, hsustained⟩ := ih
      obtain ⟨hpaired, hholds, hnodup, hposted⟩ := hsustained.retained
      exact ⟨cs, posts, ⟨hpaired, hholds, hnodup, hposted⟩,
        fun o ho => Nat.lt_of_lt_of_le (hsustained.grounded o ho) (hcount hstep), hsustained.allowed,
        hbetween hstep hsustained.kept⟩
  | render _ hadmits hp hpass hallows ih =>
      obtain ⟨cs, posts, hsustained⟩ := ih
      obtain ⟨cs', posts', hcarries⟩ := hsustained.retained.render hadmits hpass
      refine ⟨cs', posts', hsustained.carry hmove helements hnodes hcarries (by simpa using hp) (fun o ho => ?_)
        (hcarries.retained.allowed hallows)⟩
      rcases List.mem_append.mp ho with ho | ho
      · exact hsustained.grounded o ho
      · rwa [List.mem_singleton.mp ho]
  | @diff before after σ σ' _ p _ r _ _ hadmits hpass hfollows hallows ih =>
      obtain ⟨cs, posts, hsustained⟩ := ih
      have hp := hsustained.grounded (p, r) (by simp)
      obtain ⟨cs', posts', hcarries⟩ := hsustained.retained.diff hadmits hpass hfollows
      refine ⟨cs', posts', hsustained.carry hmove helements hnodes hcarries (by simpa using hp) (fun o ho => ?_)
        (hcarries.retained.allowed hallows)⟩
      simp only [List.mem_append, List.mem_cons] at ho
      rcases ho with ho | rfl | ho
      · exact hsustained.grounded o (by simp [ho])
      · exact hp
      · exact hsustained.grounded o (by simp [ho])
  | update _ hid hpass hfollows hallows ih =>
      obtain ⟨cs, posts, hsustained⟩ := ih
      obtain ⟨cs', posts', hcarries⟩ := hsustained.retained.update
        (hsustained.retained.holds.mem_iff_reachable.mpr hid) hpass hsame hfollows
      exact ⟨cs', posts', hsustained.carry hmove helements hnodes hcarries
        (by simpa using hsustained.grounded) hsustained.grounded
        (hcarries.retained.allowed hallows)⟩
  | @remove before after σ σ' p r _ hpass ih =>
      obtain ⟨cs, posts, hsustained⟩ := ih
      have hp := hsustained.grounded (p, r) (by simp)
      obtain ⟨cs', posts', hcarries, hsub⟩ := hsustained.retained.remove hpass
      refine ⟨cs', posts', hsustained.carry hmove helements hnodes hcarries (by simpa using hp) (fun o ho => ?_)
        fun post hpost => hsustained.allowed post (hsub post hpost)⟩
      exact hsustained.grounded o (by
        simp only [List.mem_append, List.mem_cons] at ho ⊢
        tauto)

end Invariants

end Parlance
