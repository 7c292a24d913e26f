import Parlance.Proofs.Engine.Abiding
import Parlance.Proofs.Engine.Breaking
import Parlance.Proofs.Engine.Confining

/-! Slots that evolve beside others. What other slots have on the host is none of their business: its nodes are not
touched, and no entries are changed that words of their own do not name. -/

namespace Parlance

open Pass

variable {ω : Type} {b : Behaviour ω} {t : Array Instance} {p q : NodeId} {goal : List NodeId → Prop}
variable {olds lexems : List Lexem} {slots slots' : List Slot} {posts posts' kept right : List Post} {σ σ' : Stage ω}
variable {h h' : Host}

/-- Posts are told by the table, the parent, the words and the slots. -/
theorem Census.unique {ρ ρ' : Regime} (h : Census ρ t p lexems slots posts) (h' : Census ρ' t p lexems slots posts') :
    posts' = posts := by
  induction h generalizing posts' with
  | nil =>
      cases h'
      rfl
  | part hslot _ _ _ ihinner ihouter =>
      cases h' with
      | component => exact absurd rfl (hslot _)
      | part _ _ hinner houter => rw [ihinner hinner, ihouter houter]
  | component hpresent _ _ hwitness hdeveloped _ _ _ ihinner ihouter =>
      cases h' with
      | part hslot => exact absurd rfl (hslot _)
      | component hpresent' _ _ hwitness' hdeveloped' _ hinner houter =>
          cases hpresent.symm.trans hpresent'
          cases hwitness.symm.trans hwitness'
          cases hdeveloped.symm.trans hdeveloped'
          rw [ihinner hinner, ihouter houter]

/-- No node stands in two links. -/
theorem Attached.apart {links links' : List (NodeId × NodeId)} (hattached : Attached h (links ++ links')) :
    ∀ link ∈ links, ∀ link' ∈ links', link.2 ≠ link'.2 := fun link hlink link' hlink' heq => by
  have hparent := hattached.left.parent link hlink
  rw [heq, hattached.right.parent link' hlink', Option.some.injEq] at hparent
  exact (List.nodup_append.mp hattached.nodup).2.2 link hlink link' hlink' (Prod.ext hparent.symm heq)

/-- The nodes that stand under the nodes of posts. -/
def nodesOf (posts : List Post) : List NodeId := (linksOf posts).map (·.2)

@[simp] theorem nodesOf_append (posts posts' : List Post) : nodesOf (posts ++ posts') = nodesOf posts ++ nodesOf posts' := by
  rw [nodesOf, linksOf_append, List.map_append, nodesOf, nodesOf]

theorem nodesOf_cons (post : Post) (posts : List Post) : nodesOf (post :: posts) = post.mark.tops ++ nodesOf posts := by
  rw [nodesOf, linksOf_cons, List.map_append, List.map_map]
  exact congrArg (· ++ nodesOf posts) (List.map_id _)

theorem mem_nodesOf {n : NodeId} : n ∈ nodesOf posts ↔ ∃ post ∈ posts, n ∈ post.mark.tops := by
  simp only [nodesOf, linksOf, List.mem_map, List.mem_flatMap]
  exact ⟨fun ⟨link, ⟨post, hpost, m, hm, hlink⟩, heq⟩ => ⟨post, hpost, by rw [← heq, ← hlink]; exact hm⟩,
    fun ⟨post, hpost, hn⟩ => ⟨(post.node, n), ⟨post, hpost, n, hn, rfl⟩, rfl⟩⟩

theorem mem_nodesOf_elements {n : NodeId} (hn : n ∈ elementsOf posts) : n ∈ nodesOf posts := by
  obtain ⟨post, hpost, hmark⟩ := mem_elementsOf.mp hn
  exact mem_nodesOf.mpr ⟨post, hpost, by simp [hmark, Mark.tops]⟩

/-- Everything but the nodes of some posts, and but some entries. -/
def Region.off (kept : List Post) (held : List (NodeId × Place)) : Region where
  tops n := n ∉ nodesOf kept
  nodes n := n ∉ nodesOf kept
  nodes_of_tops _ h := h
  places n π := (n, π) ∉ held
  listeners _ := True
  hooks := True

/-- Words of posts name none of some entries. -/
def Unheld (held : List (NodeId × Place)) (posts : List Post) : Prop :=
  ∀ post ∈ posts, ∀ π, post.lexem.Names π → (post.node, π) ∉ held

variable {held : List (NodeId × Place)}

/-- Posts beside others are out of their way. -/
theorem Attached.inside (hattached : Attached h (linksOf (kept ++ posts ++ right)))
    (hnodes : ∀ post ∈ posts ++ right, post.node = p ∨ post.node ∈ elementsOf (posts ++ right))
    (hp : p ∉ nodesOf kept) (hunheld : Unheld held (posts ++ right)) :
    ∀ post ∈ posts ++ right, post.Inside (.off kept held) := by
  rw [List.append_assoc, linksOf_append] at hattached
  have hapart : ∀ n ∈ nodesOf (posts ++ right), n ∉ nodesOf kept := by
    intro n hn hkept
    obtain ⟨link, hlink, rfl⟩ := List.mem_map.mp hkept
    obtain ⟨link', hlink', heq⟩ := List.mem_map.mp hn
    exact hattached.apart link hlink link' hlink' heq.symm
  intro post hpost
  refine ⟨?_, fun n hn => hapart n (mem_nodesOf.mpr ⟨post, hpost, hn⟩), hunheld post hpost, fun _ _ => trivial,
    fun _ _ => trivial⟩
  rcases hnodes post hpost with heq | helement
  · rw [heq]
    exact hp
  · exact hapart _ (mem_nodesOf_elements helement)

/-- Slots evolve beside others, and leave these alone. -/
theorem Evolves.spares (held : List (NodeId × Place)) {cs : List InstanceId} (hhookless : b.Hookless)
    (h : ∀ ρ : Regime, ρ.engine = none → Evolves ρ b p goal σ olds slots σ' lexems slots')
    (hholds : Holds σ.instances slots cs) (hnodup : cs.Nodup) (hcensus : Census .loose σ.instances p olds slots posts)
    (hattached : Attached σ.host (linksOf (kept ++ posts ++ right))) (hparent : p.index < σ.host.count)
    (hfaces : Faces p goal [] right) (hright : ∀ post ∈ right, post.node = p) (hp : p ∉ nodesOf kept)
    (hold : Unheld held (posts ++ right))
    (hnew : ∀ posts', Census .loose σ'.instances p lexems slots' posts' → Unheld held posts') :
    σ.host.Confined (.off kept held) σ'.host ∧ ∃ posts', Census .loose σ'.instances p lexems slots' posts' ∧
      Attached σ'.host (linksOf (kept ++ posts' ++ right)) ∧ Moves .loose b σ (posts ++ right) σ' (posts' ++ right) := by
  have hquiet : b.Quiet := hhookless.quiet
  have hgrounded : Grounded σ.host p posts := by
    refine ⟨hparent, fun n hn => ?_⟩
    obtain ⟨link, hlink, rfl⟩ := List.mem_map.mp (mem_nodesOf_elements hn)
    exact hattached.made link (by
      simp only [linksOf_append, List.mem_append]
      exact .inl (.inr hlink))
  have hnodes : ∀ {t : Array Instance} {lexems : List Lexem} {slots : List Slot} {posts : List Post},
      Census .loose t p lexems slots posts →
      ∀ post ∈ posts ++ right, post.node = p ∨ post.node ∈ elementsOf (posts ++ right) := by
    intro t lexems slots posts hcensus post hpost
    rcases List.mem_append.mp hpost with hpost | hpost
    · exact (hcensus.node_mem post hpost).imp_right fun hmem => by simp [hmem]
    · exact .inl (hright post hpost)
  -- where the nodes of the new posts stand is known before their words are known to be allowed
  obtain ⟨posts', hcensus', hmoves, -⟩ := (h .loose rfl).moves hholds hnodup hcensus nofun
  have hloose : ∀ left, Faces p goal left right → Moves .loose b σ (left ++ posts ++ right) σ' (left ++ posts' ++ right) :=
    fun left hfaces => hmoves hquiet.keepsNodes (fun _ _ => trivial) left right hgrounded hfaces
  obtain ⟨-, hattached'⟩ := (hloose kept fun hnone => hfaces fun hmem => hnone (by
    simp only [elementsOf_append, List.mem_append]
    exact .inr hmem)).attached (R := ⟨0, False, False⟩) hquiet id (Nat.zero_le _) hattached
  have hunheld' : Unheld held (posts' ++ right) := fun post hpost => (List.mem_append.mp hpost).elim
    (fun hpost => hnew posts' hcensus' post hpost) fun hpost => hold post (List.mem_append_right _ hpost)
  have hinside := hattached.inside (hnodes hcensus) hp hold
  have hinside' := hattached'.inside (hnodes hcensus') hp hunheld'
  have hnow : Census (.within (.off kept held)) σ.instances p olds slots posts := by
    refine hcensus.regime ?_ ?_ <;> rfl
  obtain ⟨posts₁, hcensus₁, hwithin, -⟩ := (h (.within (.off kept held)) rfl).moves hholds hnodup hnow nofun
  rw [hcensus'.unique hcensus₁] at hwithin
  have hallowed : (Regime.within (.off kept held)).Allowed posts' := fun post hpost => by
    have hpost' := hinside' post (List.mem_append_left _ hpost)
    exact ⟨hpost'.node, hpost'.places, fun _ => trivial⟩
  have hopen : (Region.off kept held).Open σ.host := by
    refine ⟨fun n hn hkept => ?_, fun _ _ => trivial⟩
    obtain ⟨link, hlink, rfl⟩ := List.mem_map.mp hkept
    exact Nat.not_lt.mpr hn (hattached.made link (by
      simp only [linksOf_append, List.mem_append]
      exact .inl (.inl hlink)))
  have hkeeping := (hwithin hquiet.keepsNodes hallowed [] right hgrounded hfaces).keeping hopen
    (fun _ => hhookless) ⟨.refl _, hinside⟩
  exact ⟨hkeeping.confined, posts', hcensus', hattached', hloose [] hfaces⟩

end Parlance
