import Parlance.Proofs.Engine.Guarding
import Parlance.Proofs.Host.Forests

/-! Passes that tend a forest. A warden lets a pass work on a host by rules: it may take off a parent what was put there
and has not been taken off before. As long as nothing has failed, all nodes of an output are still where they were put,
so that a removal finds the child under the parent that it names; this is what moves keep. -/

namespace Parlance

open Pass

variable {ω : Type} {b : Behaviour ω} {R : Rules}

/-- Nodes are written on, and listeners are bound, but none is made, put somewhere or taken away. -/
structure Host.Still (h h' : Host) : Prop where
  tree : SameTree h h'
  parent : ∀ n, h'.parent n = h.parent n
  calls : ∃ ms, h'.calls = h.calls ++ ms ∧ ∀ m ∈ ms, ∃ n, m.inscribed? = some n

theorem Host.Still.works {h h' : Host} (hstill : Still h h') (hinside : ¬ R.inside) : Works R h h' := by
  obtain ⟨ms, hcalls, hms⟩ := hstill.calls
  exact .one (.quiet hstill.tree hstill.parent hcalls fun m hm =>
    (hms m hm).imp fun _ hn => ⟨hn, fun h => absurd h hinside⟩)

/-- Hooks leave the tree alone. -/
def Behaviour.Quiet (b : Behaviour ω) : Prop := ∀ {h w h' w'}, b.Hooks h w h' w' → h.Still h'

theorem Behaviour.Quiet.keepsNodes (hquiet : b.Quiet) : b.KeepsNodes := fun hcall =>
  Nat.le_of_eq (hquiet hcall).tree.count.symm

/-- A node that was put under a parent, and that stands there or nowhere. -/
def Host.Home (h : Host) (p n : NodeId) : Prop := n.index < h.count ∧ (h.parent n = some p ∨ h.parent n = none)

theorem Host.Home.later {h h' : Host} {p n : NodeId} (hhome : h.Home p n) (hlater : Later h h') : h'.Home p n := by
  refine ⟨Nat.lt_of_lt_of_le hhome.1 hlater.count, ?_⟩
  rcases hlater.parent n hhome.1 with heq | hnone
  · rw [heq]
    exact hhome.2
  · exact .inr hnone

namespace Rules

variable (R) in
/-- The warden that lets a pass work by the rules. -/
def warden : Warden where
  first := 0
  sound h := R.first ≤ h.count
  turns := Host.Works R
  owns := Host.Home
  refl := .refl
  trans := .trans
  count hworks := hworks.later.count
  keeps hfirst hworks := Nat.le_trans hfirst hworks.later.count
  later hworks hhome := hhome.later hworks.later
  inside := And.left
  quiet _ htree hparent hcalls hms _ := .one (.quiet htree hparent hcalls fun m hm =>
    (hms m hm).imp fun _ hn => ⟨hn.1, fun _ => hn.2⟩)
  adds hfirst hp hanchor hadds := by
    refine ⟨.one (.adds hfirst hp (fun _ => hanchor) hadds), ?_, .inl ?_⟩
    · rw [hadds.puts.count]
      exact Nat.lt_succ_self _
    · rw [hadds.parent, if_pos rfl]

/-- After a failure, what was put somewhere may be taken away once more. -/
theorem drops (hfailed : R.failed) : R.warden.Drops := fun _ hp hhome hdrops =>
  .one (.drops (fun _ => hp) (by simp) (by simpa using ⟨hhome.1, hhome.2.imp_right fun hnone => ⟨hfailed, hnone⟩⟩) hdrops)

theorem hooks (hquiet : b.Quiet) (hinside : ¬ R.inside) : R.warden.Hooks b := fun hcall _ => (hquiet hcall).works hinside

variable (R) in
/-- The same rules once something has failed. -/
def lax : Rules := { R with failed := True }

theorem drops_lax : R.lax.warden.Drops := drops trivial

theorem hooks_lax (hquiet : b.Quiet) (hinside : ¬ R.inside) : R.lax.warden.Hooks b :=
  fun hcall _ => (hquiet hcall).works hinside

/-- What may be taken away is the same by all rules. -/
theorem own {R' : Rules} {h : Host} {p : NodeId} {slots : List Slot} (hown : R.warden.Own h p slots) :
    R'.warden.Own h p slots := by
  induction hown with
  | nil => exact .nil
  | cons hnodes hlate _ _ ihinner ihouter => exact .cons hnodes hlate ihinner ihouter

theorem safe {R' : Rules} {σ : Stage ω} (hfirst : R'.first ≤ σ.host.count) (hsafe : R.warden.Safe σ) :
    R'.warden.Safe σ := by
  refine ⟨hfirst, ⟨hsafe.table.size, fun id i hlate hget => ?_⟩⟩
  obtain ⟨hsite, hwitness, houtput⟩ := hsafe.table.own id i hlate hget
  exact ⟨hsite, hwitness, fun r hr => own (houtput r hr)⟩

end Rules

/-- The links of posts: each node with the parent that it was put under. -/
def linksOf (posts : List Post) : List (NodeId × NodeId) := posts.flatMap fun post => post.mark.tops.map (post.node, ·)

@[simp] theorem linksOf_nil : linksOf [] = [] := rfl

@[simp] theorem linksOf_append (posts posts' : List Post) : linksOf (posts ++ posts') = linksOf posts ++ linksOf posts' :=
  List.flatMap_append

theorem linksOf_cons (post : Post) (posts : List Post) :
    linksOf (post :: posts) = post.mark.tops.map (post.node, ·) ++ linksOf posts := List.flatMap_cons

/-- Nodes stand under their parents, each named once. -/
structure Attached (h : Host) (links : List (NodeId × NodeId)) : Prop where
  parent : ∀ link ∈ links, h.parent link.2 = some link.1
  nodup : links.Nodup

namespace Attached

variable {h h' : Host} {links links' : List (NodeId × NodeId)} {q : NodeId} {anchor : Option NodeId} {ns : List NodeId}

theorem perm (hattached : Attached h links) (hperm : links.Perm links') : Attached h links' :=
  ⟨fun link hlink => hattached.parent link (hperm.mem_iff.mpr hlink), hperm.nodup_iff.mp hattached.nodup⟩

theorem left (hattached : Attached h (links ++ links')) : Attached h links :=
  ⟨fun link hlink => hattached.parent link (List.mem_append_left _ hlink), (List.nodup_append.mp hattached.nodup).1⟩

theorem right (hattached : Attached h (links ++ links')) : Attached h links' :=
  ⟨fun link hlink => hattached.parent link (List.mem_append_right _ hlink), (List.nodup_append.mp hattached.nodup).2.1⟩

/-- What stands under a parent is there. -/
theorem made (hattached : Attached h links) : ∀ link ∈ links, link.2.index < h.count := fun link hlink =>
  Nat.lt_of_not_le fun hle => by
    have hparent := hattached.parent link hlink
    rw [Host.parent_of_count_le hle] at hparent
    cases hparent

theorem keep (hattached : Attached h links) (hparent : ∀ n, h'.parent n = h.parent n) : Attached h' links :=
  ⟨fun link hlink => (hparent _).trans (hattached.parent link hlink), hattached.nodup⟩

theorem adds (hattached : Attached h links) (hadds : Host.Adds q anchor h h') : Attached h' ((q, h.next) :: links) := by
  have hne : ∀ link ∈ links, link.2 ≠ h.next := fun link hlink heq => Nat.lt_irrefl _ (heq ▸ hattached.made link hlink)
  refine ⟨fun link hlink => ?_, List.nodup_cons.mpr ⟨fun hmem => hne _ hmem rfl, hattached.nodup⟩⟩
  rw [hadds.parent]
  rcases List.mem_cons.mp hlink with rfl | hlink
  · rw [if_pos rfl]
  · rw [if_neg (hne link hlink)]
    exact hattached.parent link hlink

theorem drops (hattached : Attached h (ns.map (q, ·) ++ links)) (hdrops : Host.Drops q ns h h') : Attached h' links := by
  refine ⟨fun link hlink => ?_, hattached.right.nodup⟩
  have hparent := hattached.right.parent link hlink
  rw [hdrops.parent, if_neg, hparent]
  intro hmem
  have hlink' : (q, link.2) ∈ ns.map (q, ·) := List.mem_map.mpr ⟨_, hmem, rfl⟩
  have hown := hattached.left.parent _ hlink'
  rw [hparent, Option.some.injEq] at hown
  exact (List.nodup_append.mp hattached.nodup).2.2 _ hlink' link hlink (Prod.ext hown.symm rfl)

/-- To take away nodes that stand under a parent is by the rules. -/
theorem works (hattached : Attached h (ns.map (q, ·) ++ links)) (hinside : ¬ R.inside)
    (hdrops : Host.Drops q ns h h') : Host.Works R h h' := by
  have hnodup : ns.Nodup := (List.pairwise_map.mp hattached.left.nodup).imp fun hne heq => hne (by rw [heq])
  refine .one (.drops (fun h => absurd h hinside) hnodup (fun n hn => ?_) hdrops)
  have hlink : (q, n) ∈ ns.map (q, ·) := List.mem_map.mpr ⟨n, hn, rfl⟩
  exact ⟨hattached.left.made _ hlink, .inl (hattached.left.parent _ hlink)⟩

end Attached

variable {ρ : Regime} {σ σ' : Stage ω} {posts posts' : List Post}

/-- A move is work by the rules, and what was attached stays so. -/
theorem Move.attached (hquiet : b.Quiet) (hinside : ¬ R.inside) (hmove : Move ρ b σ posts σ' posts')
    (hfirst : R.first ≤ σ.host.count) (h : Attached σ.host (linksOf posts)) :
    Host.Works R σ.host σ'.host ∧ Attached σ'.host (linksOf posts') := by
  -- whatever moves no node leaves the links
  have hstill {h' : Host} (hstill : σ.host.Still h') (hlinks : linksOf posts' = linksOf posts) :
      Host.Works R σ.host h' ∧ Attached h' (linksOf posts') := ⟨hstill.works hinside, hlinks ▸ h.keep hstill.parent⟩
  have hsame {h' : Host} {q : NodeId} (hinscribes : Host.Inscribes q σ.host h') (hlinks : linksOf posts' = linksOf posts) :
      Host.Works R σ.host h' ∧ Attached h' (linksOf posts') := by
    obtain ⟨ms, hcalls, hms⟩ := hinscribes.calls
    exact hstill ⟨hinscribes.tree, hinscribes.links.parent, ms, hcalls, fun m hm => ⟨q, hms m hm⟩⟩ hlinks
  have hhooked {h' : Host} {w w' : ω} (hcall : b.Hooks σ.host w h' w') (hlinks : linksOf posts' = linksOf posts) :
      Host.Works R σ.host h' ∧ Attached h' (linksOf posts') := hstill (hquiet hcall) hlinks
  have hnone {h' : Host} (heq : h' = σ.host) (hlinks : linksOf posts' = linksOf posts) :
      Host.Works R σ.host h' ∧ Attached h' (linksOf posts') := by
    rw [heq, hlinks]
    exact ⟨.refl _, h⟩
  have htaken {h' : Host} {q : NodeId} {ns : List NodeId} {links : List (NodeId × NodeId)}
      (hdrops : Host.Drops q ns σ.host h') (hperm : (linksOf posts).Perm (ns.map (q, ·) ++ links)) :
      Host.Works R σ.host h' ∧ Attached h' links :=
    ⟨(h.perm hperm).works hinside hdrops, (h.perm hperm).drops hdrops⟩
  cases hmove with
  | acted | tabled => exact hnone rfl rfl
  | renamed => exact hnone rfl (by simp [linksOf_cons])
  | opened | closed => exact hnone rfl (by simp [linksOf_cons, Mark.tops])
  | forgotten _ htops => exact hnone rfl (by simp [linksOf_cons, htops])
  | @put left right q lexem anchor ns ns' h' hq hadds =>
      refine ⟨.one (.adds hfirst hq (fun h => absurd h hinside) hadds), (h.adds hadds).perm ?_⟩
      refine List.perm_iff_count.mpr fun link => ?_
      simp only [linksOf_append, linksOf_cons, Mark.tops, List.map_append, List.map_cons, List.count_append,
        List.count_cons]
      omega
  | @raised left right q lexem anchor h' hq hadds =>
      refine ⟨.one (.adds hfirst hq (fun h => absurd h hinside) hadds), (h.adds hadds).perm ?_⟩
      simp only [linksOf_append, linksOf_cons, Mark.tops, List.map_cons, List.map_nil, List.cons_append, List.nil_append]
      exact List.perm_middle.symm
  | @taken left right q lexem ns ns' h' hdrops => exact htaken hdrops (by
      simp only [linksOf_append, linksOf_cons, Mark.tops, List.map_append, List.append_assoc]
      exact (List.perm_append_comm_assoc _ _ _).symm)
  | @dropped left inner right q n lexem h' hinner _ hdrops =>
      have hperm : (linksOf (left ++ (inner ++ ⟨q, lexem, .element n⟩ :: right))).Perm
          ([n].map (q, ·) ++ (linksOf inner ++ linksOf (left ++ right))) := by
        refine List.perm_iff_count.mpr fun link => ?_
        simp only [linksOf_append, linksOf_cons, Mark.tops, List.count_append]
        omega
      exact (htaken hdrops hperm).imp_right Attached.right
  | worded => exact hsame (.entry σ.host _ _ _ rfl) rfl
  | written => exact hsame (.writeAll σ.host _ _) (by simp [linksOf_cons, Mark.tops])
  | rewritten _ _ _ _ _ _ hrewrite => exact hsame (rewrite_inscribes hrewrite σ.host) (by simp [linksOf_cons, Mark.tops])
  | cleared => exact hsame (Lexem.clear_inscribes _ _ σ.host) (by simp [linksOf_cons, Mark.tops])
  | shown _ _ hstrokes => exact hsame hstrokes.inscribes (by simp [linksOf_cons])
  | @bound left right q lexem event listener =>
      exact hstill ⟨.addListener σ.host _ _ _, Host.parent_addListener σ.host _ _, _, Host.calls_record _ _,
        by simp [Mutation.inscribed?]⟩ (by simp [linksOf_cons, Mark.tops])
  | rebound =>
      exact hstill ⟨.rebind σ.host _ _, fun _ => rfl, [], (List.append_nil _).symm, by simp⟩
        (by simp [linksOf_cons, Mark.tops])
  | unbound =>
      exact hstill ⟨.removeListener σ.host _ _ _, Host.parent_removeListener σ.host _ _, _, Host.calls_record _ _,
        by simp [Mutation.inscribed?]⟩ (by simp [linksOf_cons, Mark.tops])
  | hooked _ _ hcall => exact hhooked (.render hcall) (by simp [linksOf_cons, Mark.tops])
  | rehooked _ _ _ hcall => exact hhooked (.diff hcall) (by simp [linksOf_cons, Mark.tops])
  | unhooked _ _ hcall => exact hhooked (.remove hcall) (by simp [linksOf_cons, Mark.tops])

end Parlance
