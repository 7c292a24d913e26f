import Parlance.Proofs.Engine.Fencing
import Parlance.Proofs.Engine.InPlace
import Parlance.Proofs.Engine.Neighbours

/-! Which nodes belong to an output. As long as it is retained they stand at its top or under one another, and once it
is gone they are out of reach of the root: of what a run has made nothing is attached but what some output still has. -/

namespace Parlance

open Pass

variable {ω : Type} {b : Behaviour ω} {ρ : Regime} {t : Array Instance} {p q n : NodeId} {lexems : List Lexem}
variable {slots : List Slot} {r : Rendered} {posts posts' left right : List Post} {σ σ' : Stage ω} {h : Host}

/-- A node that an output has: one that a slot has of its own, wherever in the output that stands. -/
def Rendered.Has (t : Array Instance) (r : Rendered) (n : NodeId) : Prop :=
  ∃ p q slot, Stands t p r.slots q slot ∧ n ∈ slot.tops t

/-- Every post is that of a slot, which stands on the node of the post. -/
theorem Census.stands (h : Census ρ t p lexems slots posts) : ∀ post ∈ posts, ∃ slot, Stands t p slots post.node slot ∧
    post.mark.tops = slot.tops t ∧ (∀ id, post.mark = .listener id → slot = .listener id) ∧
      ∀ n, post.mark = .hook n → slot = .hook n := by
  induction h with
  | nil => simp
  | @part p lexem first lexems slots inner outer hfirst _ _ _ ihinner ihouter =>
      intro post hpost
      rcases List.mem_append.mp hpost with hpost | hpost
      · obtain ⟨slot, hstands, hslot⟩ := ihinner post hpost
        exact ⟨slot, .inside List.mem_cons_self hfirst hstands, hslot⟩
      rcases List.mem_cons.mp hpost with rfl | hpost
      · refine ⟨first, .here List.mem_cons_self, ?_⟩
        cases first with
        | component id => exact absurd rfl (hfirst id)
        | _ => simp [Slot.mark, Slot.tops]
      · obtain ⟨slot, hstands, hslot⟩ := ihouter post hpost
        exact ⟨slot, hstands.cons first, hslot⟩
  | @component p witness lexem id i r lexems slots inner outer hpresent _ _ hwitness hdeveloped _ _ _ ihinner ihouter =>
      intro post hpost
      rcases List.mem_append.mp hpost with hpost | hpost
      · obtain ⟨slot, hstands, hslot⟩ := ihinner post hpost
        exact ⟨slot, .component List.mem_cons_self hpresent hdeveloped hstands, hslot⟩
      rcases List.mem_cons.mp hpost with rfl | hpost
      · exact ⟨.component id, .here List.mem_cons_self, by simp [Slot.tops, Mark.tops, hpresent, hwitness],
          by simp, by simp⟩
      · obtain ⟨slot, hstands, hslot⟩ := ihouter post hpost
        exact ⟨slot, hstands.cons _, hslot⟩

/-- The posts of one slot are among those of all. -/
theorem Census.of_mem {slot : Slot} (h : Census ρ t p lexems slots posts) (hslot : slot ∈ slots) :
    ∃ lexem own, Census ρ t p [lexem] [slot] own ∧ ∀ post ∈ own, post ∈ posts := by
  induction h with
  | nil => cases hslot
  | part hfirst hsuits hinner _ _ ihouter =>
      rcases List.mem_cons.mp hslot with rfl | hslot
      · exact ⟨_, _, .part hfirst hsuits hinner .nil, fun post hpost => by simp at hpost ⊢; grind⟩
      · obtain ⟨lexem, own, hown, hsub⟩ := ihouter hslot
        exact ⟨lexem, own, hown, fun post hpost => by simp [hsub post hpost]⟩
  | component hpresent hparent hadmits hwitness hdeveloped hsuits hinner _ _ ihouter =>
      rcases List.mem_cons.mp hslot with rfl | hslot
      · exact ⟨_, _, .component hpresent hparent hadmits hwitness hdeveloped hsuits hinner .nil,
          fun post hpost => by simp at hpost ⊢; grind⟩
      · obtain ⟨lexem, own, hown, hsub⟩ := ihouter hslot
        exact ⟨lexem, own, hown, fun post hpost => by simp [hsub post hpost]⟩

/-- What a slot has is among the nodes of the posts, wherever the slot stands. -/
theorem Stands.listed {p' : NodeId} {slot : Slot} (hstands : Stands t p' slots q slot)
    (h : Census ρ t p lexems slots posts) (hn : n ∈ slot.tops t) : n ∈ nodesOf posts := by
  have hparts : ∀ {outer : Slot} {p : NodeId} {lexems : List Lexem} {slots : List Slot} {posts : List Post},
      Census ρ t p lexems slots posts → outer ∈ slots → (∀ id, outer ≠ .component id) →
      ∃ inner, Census ρ t (outer.inside p) (lexemsOf outer.parts) (slotsOf outer.parts) inner ∧
        ∀ n ∈ nodesOf inner, n ∈ nodesOf posts := by
    intro outer p lexems slots posts h houter hslot
    obtain ⟨lexem, own, hown, hsub⟩ := h.of_mem houter
    cases hown with
    | component => exact absurd rfl (hslot _)
    | part _ _ hinner _ =>
        refine ⟨_, hinner, fun n hn => ?_⟩
        obtain ⟨post, hpost, hn⟩ := mem_nodesOf.mp hn
        exact mem_nodesOf.mpr ⟨post, hsub post (List.mem_append_left _ hpost), hn⟩
  induction hstands generalizing p lexems posts with
  | here hslot => exact List.mem_map.mpr ⟨_, h.tops hslot hn, rfl⟩
  | @plain _ _ _ outer _ houter hplain _ ih =>
      obtain ⟨inner, hinner, hsub⟩ := hparts h houter (by rintro id rfl; exact hplain)
      exact hsub n (ih hinner hn)
  | element houter _ ih =>
      obtain ⟨inner, hinner, hsub⟩ := hparts h houter (by simp)
      exact hsub n (ih hinner hn)
  | component houter hpresent hdeveloped _ ih =>
      obtain ⟨lexem, own, hown, hsub⟩ := h.of_mem houter
      obtain ⟨inner, witness, rfl, -, -, -, -, hinner⟩ := hown.of_component hpresent hdeveloped
      obtain ⟨post, hpost, hn⟩ := mem_nodesOf.mp (ih hinner hn)
      exact mem_nodesOf.mpr ⟨post, hsub post (List.mem_append_left _ hpost), hn⟩

/-- The nodes that an output has are those of its posts. -/
theorem Census.has_iff (h : Census ρ t p r.sentence.lexems r.slots posts) : r.Has t n ↔ n ∈ nodesOf posts := by
  constructor
  · rintro ⟨_, _, _, hstands, hn⟩
    exact hstands.listed h hn
  · intro hn
    obtain ⟨post, hpost, hn⟩ := mem_nodesOf.mp hn
    obtain ⟨slot, hstands, htops, -⟩ := h.stands post hpost
    exact ⟨p, post.node, slot, hstands, htops ▸ hn⟩

/-- What a component has that an output holds, its marker included, the output has. -/
theorem Reachable.has {id : InstanceId} {i : Instance} {out : Rendered} (hid : Reachable t slots id)
    (hpresent : t[id.index]? = some i) (hdeveloped : i.developed = some out) (hn : out.Has t n ∨ i.witness = some n) :
    ∃ p q slot, Stands t p slots q slot ∧ n ∈ slot.tops t := by
  induction hid with
  | @here id slots hslot =>
      rcases hn with ⟨p, q, slot, hstands, hn⟩ | hwitness
      · exact ⟨p, q, slot, .component hslot hpresent hdeveloped hstands, hn⟩
      · exact ⟨default, default, _, .here hslot, by simp [Slot.tops, hpresent, hwitness]⟩
  | @part slot slots id hslot _ ih =>
      obtain ⟨p, q, inner, hstands, hn⟩ := ih hpresent
      by_cases hcomponent : ∃ own, slot = .component own
      · obtain ⟨own, rfl⟩ := hcomponent
        cases hstands <;> simp_all [Slot.parts]
      · obtain ⟨q', hunder⟩ := hstands.under (slot.inside p)
        exact ⟨p, q', inner, hunder.inside hslot fun own heq => hcomponent ⟨own, heq⟩, hn⟩
  | component hslot hown houtput _ ih =>
      obtain ⟨p, q, inner, hstands, hn⟩ := ih hpresent
      exact ⟨p, q, inner, .component hslot hown houtput hstands, hn⟩

/-- The nodes of posts were theirs before, or are new. -/
theorem Moves.nodes (hmoves : Moves ρ b σ posts σ' posts') :
    ∀ n ∈ nodesOf posts', n ∈ nodesOf posts ∨ σ.host.count ≤ n.index := by
  have hall := hmoves.preserves (I := fun τ ps => σ.host.count ≤ τ.host.count ∧
      ∀ n ∈ nodesOf ps, n ∈ nodesOf posts ∨ σ.host.count ≤ n.index)
    (fun {τ ps τ' ps'} hmove h => ⟨Nat.le_trans h.1 hmove.count_le, fun n hn => ?_⟩) ⟨Nat.le_refl _, fun n => .inl⟩
  · exact hall.2
  · obtain ⟨link, hlink, rfl⟩ := List.mem_map.mp hn
    rcases hmove.links link hlink with hold | ⟨-, hnew⟩
    · exact h.2 _ (List.mem_map_of_mem hold)
    · exact .inr (hnew ▸ h.1)

section Below

variable {cs : List InstanceId}

/-- The nodes of posts stand at their top or under one another. -/
theorem Census.stacked (h : Census ρ t p lexems slots posts) {host : Host} (hattached : Attached host (linksOf posts))
    (hrising : Rising posts) : ∀ n ∈ nodesOf posts, p.index < n.index ∧
      ∃ k, ∃ top ∈ topsAt p posts, host.above k n = some top := by
  have hall : ∀ (k : Nat) (n : NodeId), n.index = k → n ∈ nodesOf posts → p.index < n.index ∧
      ∃ k, ∃ top ∈ topsAt p posts, host.above k n = some top := by
    intro k
    induction k using Nat.strong_induction_on with
    | _ k ih =>
        rintro n rfl hn
        obtain ⟨post, hpost, htop⟩ := mem_nodesOf.mp hn
        have hlink : (post.node, n) ∈ linksOf posts :=
          List.mem_flatMap.mpr ⟨post, hpost, List.mem_map.mpr ⟨n, htop, rfl⟩⟩
        have hlt := hrising _ hlink
        rcases h.node_mem post hpost with heq | hmem
        · exact ⟨heq ▸ hlt, 0, n, List.mem_flatMap.mpr ⟨post, hpost, by rwa [if_pos heq]⟩, rfl⟩
        · obtain ⟨hp, k, top, htop, habove⟩ := ih _ hlt post.node rfl (mem_nodesOf_elements hmem)
          refine ⟨Nat.lt_trans hp hlt, k + 1, top, htop, ?_⟩
          rw [Host.above_succ, hattached.parent _ hlink, Option.bind_some, habove]
  exact fun n => hall _ n rfl

/-- The nodes that an output has are those at its top and what is below them. -/
theorem Rendered.below_nodes (h : Census ρ t p r.sentence.lexems r.slots posts) (hholds : Holds t r.slots cs)
    {host : Host} (hattached : Attached host (linksOf posts)) (hrising : Rising posts) (hn : r.Has t n) :
    ∃ k, ∃ top ∈ r.nodes t, host.above k n = some top := by
  have hp : p ∉ elementsOf posts := fun hmem =>
    Nat.lt_irrefl _ (h.stacked hattached hrising p (mem_nodesOf_elements hmem)).1
  rw [Rendered.nodes, nodesWith_eq, nodesOfSlots_census hholds h hp fun id _ => Nat.le_add_right _ _]
  exact (h.stacked hattached hrising n (h.has_iff.mp hn)).2

end Below

/-- The nodes of posts stand where they were put, and what was made since some time and is of no post any more stands
only under other nodes of that kind. -/
structure Lodged (first : Nat) (σ : Stage ω) (posts : List Post) : Prop where
  count : first ≤ σ.host.count
  attached : Attached σ.host (linksOf posts)
  rising : Rising posts
  late : ∀ n ∈ nodesOf posts, first ≤ n.index
  stray : ∀ n q, first ≤ n.index → n ∉ nodesOf posts → σ.host.parent n = some q →
    first ≤ q.index ∧ q.index < σ.host.count ∧ q ∉ nodesOf posts

namespace Lodged

variable {first : Nat}

theorem made (h : Lodged first σ posts) : ∀ n ∈ nodesOf posts, n.index < σ.host.count := fun n hn => by
  obtain ⟨link, hlink, rfl⟩ := List.mem_map.mp hn
  exact h.attached.made link hlink

theorem start : Lodged σ.host.count σ [] := by
  refine ⟨Nat.le_refl _, ⟨by simp, List.nodup_nil⟩, by simp [Rising], by simp [nodesOf], fun n q hn _ hq => ?_⟩
  rw [Host.parent_of_count_le hn] at hq
  cases hq

/-- Nothing moves on the host. -/
theorem still {h' : Host} {w : ω} (h : Lodged first σ posts) (hstill : σ.host.Still h') :
    Lodged first ⟨h', σ.instances, w⟩ posts where
  count := Nat.le_trans h.count (Nat.le_of_eq hstill.tree.count.symm)
  attached := h.attached.keep hstill.parent
  rising := h.rising
  late := h.late
  stray n q hn hnot hq := by
    rw [hstill.parent] at hq
    obtain ⟨hfirst, hlt, hout⟩ := h.stray n q hn hnot hq
    exact ⟨hfirst, Nat.lt_of_lt_of_eq hlt hstill.tree.count.symm, hout⟩

/-- None of what was made since is attached, but for the nodes of posts. -/
theorem not_attached (h : Lodged first σ posts) (hroot : Host.root.index < first) (hn : first ≤ n.index)
    (hnot : n ∉ nodesOf posts) : σ.host.isAttached n = false := by
  refine Host.isAttached_eq_false (fun n => first ≤ n.index ∧ n ∉ nodesOf posts)
    (fun hlost => Nat.not_le.mpr hroot hlost.1) (fun n q hlost hq => ?_) ⟨hn, hnot⟩
  obtain ⟨hfirst, -, hout⟩ := h.stray n q hlost.1 hlost.2 hq
  exact ⟨hfirst, hout⟩

end Lodged

/-- A move lodges its nodes. -/
theorem Move.lodged {first : Nat} (hquiet : b.Quiet) (hmove : Move ρ b σ posts σ' posts') (h : Lodged first σ posts) :
    Lodged first σ' posts' := by
  let R : Rules := ⟨0, False, False⟩
  have hattached' := (hmove.attached (R := R) hquiet id (Nat.zero_le _) h.attached).2
  have hrising' := hmove.rising h.rising
  have hcount' : first ≤ σ'.host.count := Nat.le_trans h.count hmove.count_le
  have hlate' : ∀ n ∈ nodesOf posts', first ≤ n.index := by
    intro n hn
    obtain ⟨link, hlink, rfl⟩ := List.mem_map.mp hn
    rcases hmove.links link hlink with hold | ⟨-, hnew⟩
    · exact h.late _ (List.mem_map_of_mem hold)
    · exact hnew ▸ h.count
  have hkeep : (∀ n, σ'.host.parent n = σ.host.parent n) → linksOf posts' = linksOf posts → Lodged first σ' posts' := by
    refine fun hparent hlinks => ⟨hcount', hattached', hrising', hlate', fun n q hn hnot hq => ?_⟩
    rw [nodesOf, hlinks] at hnot ⊢
    rw [hparent] at hq
    obtain ⟨hfirst, hlt, hout⟩ := h.stray n q hn hnot hq
    exact ⟨hfirst, Nat.lt_of_lt_of_le hlt hmove.count_le, hout⟩
  have hgrow : ∀ {q anchor}, Host.Adds q anchor σ.host σ'.host →
      (∀ n, n ∈ nodesOf posts' ↔ n = σ.host.next ∨ n ∈ nodesOf posts) → Lodged first σ' posts' := by
    refine fun hadds hnodes => ⟨hcount', hattached', hrising', hlate', fun n q hn hnot hq => ?_⟩
    rw [hnodes, not_or] at hnot
    rw [hadds.parent, if_neg hnot.1] at hq
    obtain ⟨hfirst, hlt, hout⟩ := h.stray n q hn hnot.2 hq
    refine ⟨hfirst, Nat.lt_of_lt_of_le hlt hmove.count_le, fun hmem => ((hnodes q).mp hmem).elim (fun heq => ?_) hout⟩
    rw [heq] at hlt
    exact Nat.lt_irrefl _ hlt
  have hshrink : ∀ {q ns}, Host.Drops q ns σ.host σ'.host → (∀ n ∈ nodesOf posts', n ∈ nodesOf posts) →
      (∀ n ∈ nodesOf posts, n ∉ nodesOf posts' → n ∉ ns → ∃ q ∈ nodesOf posts, q ∉ nodesOf posts' ∧
        σ.host.parent n = some q) → Lodged first σ' posts' := by
    refine fun hdrops hsub hgone => ⟨hcount', hattached', hrising', hlate', fun n q hn hnot hq => ?_⟩
    rw [hdrops.parent] at hq
    split at hq
    next => cases hq
    next hstays =>
      by_cases hold : n ∈ nodesOf posts
      · obtain ⟨m, hm, hout, hparent⟩ := hgone n hold hnot hstays
        obtain rfl := Option.some.inj (hparent.symm.trans hq)
        exact ⟨h.late m hm, Nat.lt_of_lt_of_le (h.made m hm) hmove.count_le, hout⟩
      · obtain ⟨hfirst, hlt, hout⟩ := h.stray n q hn hold hq
        exact ⟨hfirst, Nat.lt_of_lt_of_le hlt hmove.count_le, fun hmem => hout (hsub q hmem)⟩
  cases hmove with
  | acted | tabled => exact hkeep (fun _ => rfl) rfl
  | renamed => exact hkeep (fun _ => rfl) (by simp [linksOf_cons])
  | opened | closed => exact hkeep (fun _ => rfl) (by simp [linksOf_cons, Mark.tops])
  | forgotten _ htops => exact hkeep (fun _ => rfl) (by simp [linksOf_cons, htops])
  | put _ hadds | raised _ hadds =>
      refine hgrow hadds fun n => ?_
      simp only [nodesOf_append, nodesOf_cons, Mark.tops, List.mem_append, List.mem_cons, List.not_mem_nil]
      grind
  | @taken left right q lexem ns ns' h' hdrops =>
      simp only [nodesOf_append, nodesOf_cons, Mark.tops, List.mem_append] at hshrink
      exact hshrink hdrops (fun n hn => by grind) fun n hn hnot hout => by grind
  | @dropped left inner right q m lexem h' hinner _ hdrops =>
      refine hshrink hdrops (fun n hn => ?_) fun n hn hnot hout => ?_
      · simp only [nodesOf_append, List.mem_append] at hn ⊢
        tauto
      -- what has stood under the element or inside it is of no post any more, nor is what it stands under
      have hwithin : n ∈ nodesOf inner := by
        simp only [nodesOf_append, nodesOf_cons, Mark.tops, List.mem_append] at hn hnot hout
        grind
      have happart : ∀ k ∈ nodesOf (inner ++ [⟨q, lexem, .element m⟩]), k ∉ nodesOf (left ++ right) := by
        have hperm : Attached σ.host (linksOf (inner ++ [⟨q, lexem, .element m⟩]) ++ linksOf (left ++ right)) :=
          h.attached.perm (List.perm_iff_count.mpr fun link => by
            simp only [linksOf_append, linksOf_cons, linksOf_nil, List.count_append, List.append_nil]
            omega)
        intro k hk hmem
        obtain ⟨link, hlink, rfl⟩ := List.mem_map.mp hk
        obtain ⟨link', hlink', heq⟩ := List.mem_map.mp hmem
        exact hperm.apart link hlink link' hlink' heq.symm
      obtain ⟨post, hpost, htop⟩ := mem_nodesOf.mp hwithin
      have hparent : σ.host.parent n = some post.node := h.attached.parent (post.node, n)
        (List.mem_flatMap.mpr ⟨post, by simp [hpost], List.mem_map.mpr ⟨n, htop, rfl⟩⟩)
      have hinside : post.node ∈ nodesOf (inner ++ [⟨q, lexem, .element m⟩]) := by
        refine mem_nodesOf_elements ?_
        rw [elementsOf_append, List.mem_append]
        rcases hinner post hpost with heq | hmem
        · exact .inr (mem_elementsOf.mpr ⟨_, List.mem_singleton_self _, by rw [heq]⟩)
        · exact .inl hmem
      refine ⟨post.node, ?_, happart _ hinside, hparent⟩
      simp only [nodesOf_append, nodesOf_cons, List.mem_append] at hinside ⊢
      rcases hinside with hinside | hinside | hinside
      · exact .inr (.inl hinside)
      · exact .inr (.inr (.inl hinside))
      · cases hinside
  | worded => exact hkeep (Host.Inscribes.entry σ.host _ _ _ rfl).links.parent rfl
  | written => exact hkeep (Host.Inscribes.writeAll σ.host _ _).links.parent (by simp [linksOf_cons, Mark.tops])
  | rewritten _ _ _ _ _ _ hrewrite =>
      exact hkeep (rewrite_inscribes hrewrite σ.host).links.parent (by simp [linksOf_cons, Mark.tops])
  | cleared => exact hkeep (Lexem.clear_inscribes _ _ σ.host).links.parent (by simp [linksOf_cons, Mark.tops])
  | shown _ _ hstrokes => exact hkeep hstrokes.inscribes.links.parent (by simp [linksOf_cons])
  | bound => exact hkeep (Host.parent_addListener σ.host _ _) (by simp [linksOf_cons, Mark.tops])
  | rebound => exact hkeep (fun _ => rfl) (by simp [linksOf_cons])
  | unbound => exact hkeep (Host.parent_removeListener σ.host _ _) (by simp [linksOf_cons, Mark.tops])
  | hooked _ _ hcall => exact hkeep (hquiet (.render hcall)).parent (by simp [linksOf_cons, Mark.tops])
  | rehooked _ _ _ hcall => exact hkeep (hquiet (.diff hcall)).parent (by simp [linksOf_cons])
  | unhooked _ _ hcall => exact hkeep (hquiet (.remove hcall)).parent (by simp [linksOf_cons, Mark.tops])

/-- Whatever posts have, one of the outputs has. -/
theorem Posted.has {os : Outputs} (h : Posted ρ t os posts) (hn : n ∈ nodesOf posts) : ∃ o ∈ os, o.2.Has t n := by
  induction h with
  | nil => cases hn
  | @cons p r os first rest hown _ ih =>
      rw [nodesOf_append, List.mem_append] at hn
      rcases hn with hn | hn
      · exact ⟨(p, r), List.mem_cons_self, hown.has_iff.mpr hn⟩
      · obtain ⟨o, ho, hhas⟩ := ih hn
        exact ⟨o, List.mem_cons_of_mem _ ho, hhas⟩

section Runs

variable {between : Host → ω → Host → ω → Prop} {σ₀ : Stage ω} {os before after : Outputs}
variable (hquiet : b.Quiet) (hstill : ∀ {h w h' w'}, between h w h' w' → h.Still h')
include hquiet hstill

/-- A run lodges its nodes. -/
theorem Run.lodged (hrun : Run .loose b between σ₀ os σ) :
    ∃ cs posts, Sustained .loose (Lodged σ₀.host.count) os σ cs posts :=
  hrun.sustained (fun hmove h => hmove.lodged hquiet h) (fun h n hn => h.made n (mem_nodesOf_elements hn))
    hquiet.keepsNodes (fun _ h => h) (fun hbetween => Nat.le_of_eq (hstill hbetween).tree.count.symm)
    (fun hbetween h => h.still (hstill hbetween)) .start

/-- Once an output is removed, none of its nodes is attached any more, and of all that the run has made only what other
outputs have. -/
theorem Run.removed (hroot : Host.root.index < σ₀.host.count)
    (hrun : Run .loose b between σ₀ (before ++ (p, r) :: after) σ) (hremove : Engine.remove b p r σ = .ok () σ') :
    (∀ n, r.Has σ.instances n → σ'.host.isAttached n = false) ∧
    ∀ n, σ₀.host.count ≤ n.index → σ'.host.isAttached n = true → ∃ o ∈ before ++ after, o.2.Has σ'.instances n := by
  obtain ⟨cs, posts, ⟨hpaired, hholds, hnodup, hposted⟩, hgrounded, -, hlodged⟩ := hrun.lodged hquiet hstill
  obtain ⟨left, _, rfl, hleft, hrest⟩ := hposted.split
  cases hrest with
  | @cons _ _ _ own right hown hright =>
  have hslots : Outputs.slots (before ++ (p, r) :: after) = before.slots ++ (r.slots ++ after.slots) := by
    simp [Outputs.slots]
  rw [hslots] at hholds
  obtain ⟨ids, _, rfl, hids, hrest⟩ := hholds.split
  obtain ⟨cs, ids', rfl, hcs, hids'⟩ := hrest.split
  obtain ⟨-, hrestNodup, hdisjoint⟩ := List.nodup_append.mp hnodup
  obtain ⟨hcsNodup, -, hdisjoint'⟩ := List.nodup_append.mp hrestNodup
  have hgone : EvolvesAll .loose b p (fun _ => True) σ [r] σ' [] := teardown_evolves hremove
  have hevolves := hgone.evolves (by simpa using hpaired (p, r) (by simp))
  simp only [lexemsOf_cons, slotsOf_cons, lexemsOf_nil, slotsOf_nil, List.append_nil] at hevolves
  obtain ⟨_, -, hexchange⟩ := hevolves.turn cs hcs (mounted_blind hcsNodup)
  have hagree : ∀ id, id ∈ ids ∨ id ∈ ids' → Agree σ.instances σ'.instances id := by
    rintro id (hid | hid)
    · exact hexchange.agree id (hids.index_lt id hid) fun hmem => hdisjoint id hid id (by simp [hmem]) rfl
    · exact hexchange.agree id (hids'.index_lt id hid) fun hmem => hdisjoint' id hmem id hid rfl
  obtain ⟨posts', hcensus', hmoves, -⟩ := hevolves.moves hcs hcsNodup hown .gone
  cases hcensus'
  have hrow := hmoves hquiet.keepsNodes (fun _ _ => trivial) left right
    ⟨hgrounded (p, r) (by simp), fun n hn => hlodged.made n (by simp [mem_nodesOf_elements hn])⟩ fun _ => trivial
  rw [List.append_nil, List.append_assoc] at hrow
  have hlodged' : Lodged σ₀.host.count σ' (left ++ right) :=
    hrow.preserves (fun hmove h => hmove.lodged hquiet h) hlodged
  have hposted' : Posted .loose σ'.instances (before ++ after) (left ++ right) :=
    (hleft.congr hids fun id hid => hagree id (.inl hid)).append (hright.congr hids' fun id hid => hagree id (.inr hid))
  refine ⟨fun n hn => ?_, fun n hn hattached => hposted'.has ?_⟩
  · have hmem := hown.has_iff.mp hn
    refine hlodged'.not_attached hroot (hlodged.late n (by simp [hmem])) fun hother => ?_
    have hapart : Attached σ.host (linksOf own ++ linksOf (left ++ right)) :=
      hlodged.attached.perm (List.perm_iff_count.mpr fun link => by
        simp only [linksOf_append, List.count_append]
        omega)
    obtain ⟨link, hlink, rfl⟩ := List.mem_map.mp hmem
    obtain ⟨link', hlink', heq⟩ := List.mem_map.mp hother
    exact hapart.apart link hlink link' hlink' heq.symm
  · by_contra hnot
    rw [hlodged'.not_attached hroot hn hnot] at hattached
    cases hattached

end Runs

end Parlance
