import Parlance.Proofs.Engine.Course
import Parlance.Proofs.Engine.Idempotence
import Parlance.Proofs.Engine.Lodging
import Parlance.Proofs.Engine.Opening

/-! Items of a list that is diffed. Each is diffed in its own place, those past the end of the old list are rendered and
those past the end of the new one are taken away; and an item that is only rebuilt is passed over in silence, while the
other items leave it alone. -/

namespace Parlance

open Pass

variable {ω : Type} {b : Behaviour ω} {e : Engine} {R : Rebuilding b e} {depth : Nat} {c : Cursor} {σ σ₁ σ' : Stage ω}

namespace Engine

section Matching

variable {α : Type} {new : α → Stage ω → Rendered → Stage ω → Prop}
variable {kept : α → Rendered → Stage ω → Rendered → Stage ω → Prop}

/-- Outputs before a place, the output at that place, and those after it. -/
theorem Matching.at_index {as : List α} {olds rs rest : List Rendered} {k : Nat} {a : α} {old : Rendered}
    (h : Matching new kept as olds σ rs rest σ') (ha : as[k]? = some a) (hold : olds[k]? = some old) :
    ∃ σ₁ σ₂ r, Matching new kept (as.take k) (olds.take k) σ (rs.take k) [] σ₁ ∧ kept a old σ₁ r σ₂ ∧
      rs[k]? = some r ∧ Matching new kept (as.drop (k + 1)) (olds.drop (k + 1)) σ₂ (rs.drop (k + 1)) rest σ' := by
  induction k generalizing as olds rs σ with
  | zero =>
      cases h with
      | rest => cases ha
      | new => cases hold
      | kept head tail =>
          rw [List.getElem?_cons_zero, Option.some.injEq] at ha hold
          subst ha hold
          exact ⟨σ, _, _, .rest, head, rfl, tail⟩
  | succ k ih =>
      cases h with
      | rest => cases ha
      | new => cases hold
      | kept head tail =>
          obtain ⟨σ₁, σ₂, r, hbefore, hhere, hr, hafter⟩ := ih tail ha hold
          exact ⟨σ₁, σ₂, r, .kept head hbefore, hhere, hr, hafter⟩

end Matching

/-- First what both lists have is diffed in order, and then what only the new one has is rendered. What only the old
one has is left over. -/
theorem MatchItems.chains {render : Cursor → Phrase → Pass ω Rendered}
    {diff : Engine → Cursor → Phrase → Rendered → Pass ω Rendered} {phrases : List Phrase}
    {items items' rest : List Rendered} (h : MatchItems render diff e c phrases items σ items' rest σ') :
    ∃ kept added σ₁, items' = kept ++ added ∧ rest = items.drop phrases.length ∧
      Chain (fun x : Phrase × Rendered => diff e c x.1 x.2) (phrases.zip items) σ kept σ₁ ∧
      Chain (render c) (phrases.drop items.length) σ₁ added σ' := by
  unfold MatchItems at h
  induction h with
  | rest => exact ⟨[], [], _, rfl, rfl, .nil, by simpa using .nil⟩
  | new head _ ih =>
      obtain ⟨kept, added, σ₁, rfl, rfl, hkept, hadded⟩ := ih
      rw [List.zip_nil_right] at hkept
      cases hkept
      exact ⟨[], _, _, rfl, by simp, .nil, .cons head hadded⟩
  | kept head _ ih =>
      obtain ⟨kept, added, σ₁, rfl, rfl, hkept, hadded⟩ := ih
      exact ⟨_, added, σ₁, rfl, rfl, .cons head hkept, hadded⟩

end Engine

/-- A move goes on in a world that only goes on. -/
theorem Move.onward {posts posts' : List Post} (hacts : ∀ {w w'}, b.Acts w w' → R.later w w') (hhookless : b.Hookless)
    (hmove : Move .loose b σ posts σ' posts') : R.Onward σ σ' := by
  have hhooked : ∀ {h' w'}, b.Hooks σ.host σ.world h' w' → R.Onward σ ((σ.onHost fun _ => h').inWorld w') := by
    intro h' w' hcall
    obtain ⟨-, rfl⟩ := hhookless _ _ _ _ hcall
    exact ⟨R.refl _, fun _ i hi => ⟨i, hi, rfl⟩⟩
  cases hmove with
  | acted hact => exact .inWorld (hacts hact)
  | tabled t hendure => exact ⟨R.refl _, hendure⟩
  | hooked _ _ hcall => exact hhooked (.render hcall)
  | rehooked _ _ _ hcall => exact hhooked (.diff hcall)
  | unhooked _ _ hcall => exact hhooked (.remove hcall)
  | _ => exact ⟨R.refl _, fun _ i hi => ⟨i, hi, rfl⟩⟩

theorem Moves.onward {posts posts' : List Post} (hacts : ∀ {w w'}, b.Acts w w' → R.later w w') (hhookless : b.Hookless)
    (hmoves : Moves .loose b σ posts σ' posts') : R.Onward σ σ' :=
  hmoves.preserves (I := fun τ _ => R.Onward σ τ) (fun hmove hI => hI.trans (hmove.onward hacts hhookless)) (.refl σ)

/-- An output that was rendered at some time with the same cursor but for its anchor. Since then the world has only gone
on, and the properties that were set have kept their values. -/
structure Rebuilding.Settled (R : Rebuilding b e) (depth : Nat) (c : Cursor) (phrase : Phrase) (r : Rendered)
    (properties : List (NodeId × String)) (σ : Stage ω) : Prop where
  rendered : ∃ anchor τ τ', Engine.renderWithin b depth e { c with anchor } phrase τ = .ok r τ' ∧
    c.parent.index < τ.host.count ∧ τ.host.Sets properties τ'.host ∧ R.Onward τ' σ ∧
    ∀ x ∈ properties, σ.host.property? x.1 x.2 = τ'.host.property? x.1 x.2
  nodup : properties.Nodup
  there : ∀ x ∈ properties, x.1.index < σ.host.count

namespace Rebuilding.Settled

variable {phrase phrase' : Phrase} {r r' : Rendered} {properties : List (NodeId × String)}

/-- It stays settled as long as its properties keep their values. -/
theorem onward (h : R.Settled depth c phrase r properties σ) (honward : R.Onward σ σ')
    (hcount : σ.host.count ≤ σ'.host.count)
    (hkept : ∀ x ∈ properties, σ'.host.property? x.1 x.2 = σ.host.property? x.1 x.2) :
    R.Settled depth c phrase r properties σ' := by
  obtain ⟨anchor, τ, τ', hrender, hparent, hsets, hsince, hheld⟩ := h.rendered
  exact ⟨⟨anchor, τ, τ', hrender, hparent, hsets, hsince.trans honward,
    fun x hx => (hkept x hx).trans (hheld x hx)⟩, h.nodup, fun x hx => Nat.lt_of_lt_of_le (h.there x hx) hcount⟩

/-- To diff a rebuild against it is silent. -/
theorem silent (h : R.Settled depth c phrase r properties σ) (hagain : R.PhraseAgain σ.world phrase' phrase)
    (hdiff : Engine.diffWithin b depth e c phrase' r σ = .ok r' σ') : R.Quiet σ σ' := by
  obtain ⟨anchor, τ, τ', hrender, hparent, ⟨calls, hcalls, rfl⟩, hsince, hheld⟩ := h.rendered
  obtain ⟨_, ⟨calls', hcalls', rfl⟩, -, hsettles⟩ :=
    Rebuilding.within_settles depth (R := R) (c := { c with anchor }) hparent hrender
  obtain rfl := List.append_cancel_left (hcalls.log.symm.trans hcalls'.log)
  obtain ⟨y, σ₁, hsilent, hquiet⟩ := hsettles h.nodup c.anchor phrase' σ hagain hsince hheld
  obtain ⟨-, rfl⟩ := EStateM.Result.ok.inj (hdiff.symm.trans hsilent)
  exact hquiet

end Rebuilding.Settled

/-- No word of the other outputs of a list names one of some properties. -/
def Unshared (t : Array Instance) (p : NodeId) (properties : List (NodeId × String)) (rs : List Rendered) : Prop :=
  ∀ r ∈ rs, ∀ word ∈ r.words t p, ∀ name, word.2.Names (.property name) → (word.1, name) ∉ properties

theorem Unshared.mono {t : Array Instance} {p : NodeId} {properties : List (NodeId × String)} {rs rs' : List Rendered}
    (h : Unshared t p properties rs) (hsub : ∀ r ∈ rs', r ∈ rs) : Unshared t p properties rs' :=
  fun r hr => h r (hsub r hr)

/-- The entries that properties are. -/
def heldOf (properties : List (NodeId × String)) : List (NodeId × Place) := properties.map fun x => (x.1, .property x.2)

theorem mem_heldOf {properties : List (NodeId × String)} {n : NodeId} {π : Place} :
    (n, π) ∈ heldOf properties ↔ ∃ name, (n, name) ∈ properties ∧ π = .property name := by
  simp [heldOf, Prod.ext_iff, eq_comm]

theorem Unshared.unheld {t : Array Instance} {p : NodeId} {properties : List (NodeId × String)} {rs : List Rendered}
    {cs : List InstanceId} {posts : List Post} (h : Unshared t p properties rs) (hpaired : ∀ r ∈ rs, r.Paired)
    (hholds : Holds t (slotsOf rs) cs) (hcensus : Census .loose t p (lexemsOf rs) (slotsOf rs) posts) :
    Unheld (heldOf properties) posts := by
  intro post hpost π hnames hheld
  obtain ⟨name, hname, rfl⟩ := mem_heldOf.mp hheld
  have hword : post.word ∈ Outputs.words t (.under p rs) := by
    rw [(Posted.of_census hpaired hcensus).words (by simpa using hholds)]
    exact List.mem_map_of_mem hpost
  obtain ⟨o, ho, hmem⟩ := List.mem_flatMap.mp hword
  obtain ⟨r, hr, rfl⟩ := List.mem_map.mp ho
  exact h r hr post.word hmem name hnames hname

section Items

variable {phrases : List Phrase} {items items' rest : List Rendered} {phrase phrase' : Phrase} {r : Rendered}
variable {witness : NodeId} {old : Lexem} {k : Nat} {properties : List (NodeId × String)}

/-- The items of a list evolve, and those that are left over are gone. -/
theorem items_evolve (hanchor : c.anchor = some witness)
    (hitems : Engine.MatchItems (Engine.renderWithin b depth e) (Engine.diffWithin b depth) e c phrases items σ items'
      rest σ₁) (hrest : Sweep (teardown b c.parent) rest σ₁ σ') (hpaired : ∀ r ∈ items, r.Paired)
    (ρ : Regime) (hρ : ρ.engine = none) : EvolvesAll ρ b c.parent (Ahead (some witness)) σ items σ' items' := by
  have hadmits : ρ.Admits e := fun e' he => by simp [hρ] at he
  exact swept_evolves (fun h => hanchor ▸ renderWithin_evolves hadmits h) (fun h => diffWithin_evolves hadmits h)
    hitems hrest hpaired

/-- The marker at the end of a list. The word that it stands for is of no account here. -/
def Post.marker (p witness : NodeId) : Post := ⟨p, ⟨"", "", []⟩, .nodes [witness]⟩

theorem Unheld.append_marker {held : List (NodeId × Place)} {p : NodeId} {posts : List Post} (h : Unheld held posts) :
    Unheld held (posts ++ [.marker p witness]) := by
  intro post hpost π hnames
  rcases List.mem_append.mp hpost with hpost | hpost
  · exact h post hpost π hnames
  · obtain rfl := List.mem_singleton.mp hpost
    obtain ⟨i, hi, -⟩ := hnames
    cases hi

/-- Items that are seated stand before the marker of their list, and none of their nodes is the parent. -/
theorem Seated.before_marker {p : NodeId} (h : Seated σ p [old] [.each witness items]) : (∀ r ∈ items, r.Paired) ∧
    ∃ cs posts, Holds σ.instances (slotsOf items) cs ∧ cs.Nodup ∧
      Census .loose σ.instances p (lexemsOf items) (slotsOf items) posts ∧
      Attached σ.host (linksOf (posts ++ [.marker p witness])) ∧ p ∉ nodesOf posts := by
  obtain ⟨_, _, hheld, hnodup, hposts, hattached⟩ := id h.intact
  have hrising := h.rising _ hposts
  cases hheld with
  | @part _ _ cs _ _ hpaired hholds houter =>
  cases houter
  rw [List.append_nil] at hnodup
  cases hposts with
  | @part _ _ _ _ _ posts _ _ _ hcensus houter =>
  cases houter
  refine ⟨hpaired, cs, posts, hholds, hnodup, hcensus, ?_, fun hmem => ?_⟩
  · simpa [linksOf_append, linksOf_cons, Post.marker, Slot.mark, Slot.ends, Mark.tops] using hattached
  · rw [linksOf_append] at hattached
    exact Nat.lt_irrefl _ (hcensus.stacked hattached.left hrising.split.1 p hmem).1

/-- Items before the marker of their list evolve, and leave alone what else is there. -/
theorem items_leave {rs rs' : List Rendered} {p : NodeId} {cs : List InstanceId} {posts kept : List Post}
    (hhookless : b.Hookless)
    (hevolves : ∀ ρ : Regime, ρ.engine = none → EvolvesAll ρ b p (Ahead (some witness)) σ rs σ' rs')
    (hpaired : ∀ r ∈ rs, r.Paired) (hholds : Holds σ.instances (slotsOf rs) cs) (hnodup : cs.Nodup)
    (hcensus : Census .loose σ.instances p (lexemsOf rs) (slotsOf rs) posts)
    (hattached : Attached σ.host (linksOf (kept ++ posts ++ [.marker p witness]))) (hparent : p.index < σ.host.count)
    (hp : p ∉ nodesOf kept) (hunheld : Unheld (heldOf properties) posts)
    (hunheld' : ∀ posts', Census .loose σ'.instances p (lexemsOf rs') (slotsOf rs') posts' →
      Unheld (heldOf properties) posts') :
    σ.host.Confined (.off kept (heldOf properties)) σ'.host ∧ ∃ posts',
      Attached σ'.host (linksOf (kept ++ posts' ++ [.marker p witness])) ∧
      Moves .loose b σ (posts ++ [.marker p witness]) σ' (posts' ++ [.marker p witness]) := by
  have hfaces : Faces p (Ahead (some witness)) [] [.marker p witness] := fun _ => by
    simp [Ahead, topsAt_cons, Post.marker, Mark.tops]
  have hright : ∀ post ∈ [Post.marker p witness], post.node = p := by simp [Post.marker]
  obtain ⟨hconfined, posts', -, hattached', hmoves⟩ := Evolves.spares (heldOf properties) hhookless
    (fun ρ hρ => (hevolves ρ hρ).evolves hpaired) hholds hnodup hcensus hattached hparent hfaces hright hp
    hunheld.append_marker hunheld'
  exact ⟨hconfined, posts', hattached', hmoves⟩

/-- The diff of a list does not touch the nodes of an item that is rebuilt, if this item is settled and its properties
are its own. -/
theorem items_spare (hhookless : b.Hookless) (hacts : ∀ {w w'}, b.Acts w w' → R.later w w')
    (hanchor : c.anchor = some witness) (hseated : Seated σ c.parent [old] [.each witness items])
    (hitems : Engine.MatchItems (Engine.renderWithin b depth e) (Engine.diffWithin b depth) e c phrases items σ items'
      rest σ₁) (hrest : Sweep (teardown b c.parent) rest σ₁ σ') (hr : items[k]? = some r)
    (hphrase : phrases[k]? = some phrase') (hsettled : R.Settled depth c phrase r properties σ)
    (hagain : R.PhraseAgain σ.world phrase' phrase)
    (hunshared : Unshared σ.instances c.parent properties (items.eraseIdx k))
    (hunshared' : Unshared σ'.instances c.parent properties (items'.eraseIdx k)) :
    ∃ ms, σ'.host.calls = σ.host.calls ++ ms ∧ ∀ m ∈ ms, ∀ n, r.Has σ.instances n → n ∉ m.touched := by
  obtain ⟨hpaired, cs, posts, hholds, hnodup, hcensus, hattached, hclear⟩ := hseated.before_marker
  obtain ⟨σ₂, σ₃, r', hbefore, hhere, -, hafter⟩ := Engine.Matching.at_index hitems hphrase hr
  -- the items before this one, this one, and those after it
  have hsplit := take_append_drop_at hr
  have hothers := List.eraseIdx_eq_take_drop_succ items k
  have hothers' := List.eraseIdx_eq_take_drop_succ items' k
  generalize items.take k = as, items.drop (k + 1) = zs, items'.take k = as', items'.drop (k + 1) = zs' at *
  subst hsplit
  obtain ⟨hpairedA, hpairedRest⟩ := List.forall_mem_append.mp hpaired
  obtain ⟨hpairedR, hpairedZ⟩ := List.forall_mem_append.mp hpairedRest
  have hfirst := items_evolve hanchor hbefore .nil hpairedA
  have hsecond : EvolvesAll .loose b c.parent (fun _ => True) σ₂ [r] σ₃ [r'] :=
    (diffWithin_evolves (fun _ he => by cases he) hhere).2
  have hthird := items_evolve hanchor hafter hrest hpairedZ
  obtain ⟨hpairedA', hturnA⟩ := (hfirst .loose rfl).renewal hpairedA
  obtain ⟨-, hturnR⟩ := hsecond.renewal hpairedR
  obtain ⟨hpairedZ', hturnZ⟩ := (hthird .loose rfl).renewal hpairedZ
  -- which of them hold which components, and have which posts
  simp only [lexemsOf_append, slotsOf_append] at hholds hcensus
  obtain ⟨idsA, idsZ, idsA', idsZ', ⟨hnodupA, hnodupZ⟩, ⟨hheldA, hheldA'⟩, ⟨hheldZ, hheldZ'⟩, hagree, hagree'⟩ :=
    Turn.around hturnA hturnR hturnZ hholds hnodup
  obtain ⟨postsA, postsRest, rfl, hcensusA, hcensusRest⟩ := hcensus.split (length_lexemsOf hpairedA)
  obtain ⟨own, postsZ, rfl, hcensusR, hcensusZ⟩ := hcensusRest.split (length_lexemsOf hpairedR)
  have hhas : ∀ n, r.Has σ.instances n → n ∈ nodesOf own := fun n hn => by
    rw [lexemsOf_cons, slotsOf_cons, lexemsOf_nil, slotsOf_nil, List.append_nil, List.append_nil] at hcensusR
    exact hcensusR.has_iff.mp hn
  simp only [nodesOf_append, List.mem_append, not_or] at hclear
  obtain ⟨-, hclearR, hclearZ⟩ := hclear
  -- the items before this one leave it alone
  have hattachedA : Attached σ.host (linksOf ((own ++ postsZ) ++ postsA ++ [.marker c.parent witness])) :=
    hattached.perm ((List.perm_append_comm.append_right _).flatMap_right _)
  obtain ⟨hconfinedA, postsA', hattachedA', hmovesA⟩ := items_leave hhookless hfirst hpairedA hheldA hnodupA hcensusA
    hattachedA hseated.parent (by simp [hclearR, hclearZ])
    ((hunshared.mono fun r hr => hothers ▸ List.mem_append_left _ hr).unheld hpairedA hheldA hcensusA)
    fun posts' hposts' => (hunshared'.mono fun r hr => hothers' ▸ List.mem_append_left _ hr).unheld hpairedA'
      (hheldA'.congr hagree') (hposts'.congr hheldA' hagree')
  -- so it is still settled when its turn comes
  have honward : R.Onward σ σ₂ := hmovesA.onward hacts hhookless
  have hsettled₂ : R.Settled depth c phrase r properties σ₂ :=
    hsettled.onward honward hconfinedA.count fun x hx =>
      hconfinedA.entries x.1 (.property x.2) (hsettled.there x hx) fun hnot => hnot (mem_heldOf.mpr ⟨x.2, hx, rfl⟩)
  have hquiet : R.Quiet σ₂ σ₃ := hsettled₂.silent (Rebuilding.phraseAgain_mono honward.world hagain) hhere
  have hparents : ∀ n, σ₃.host.parent n = σ₂.host.parent n := fun n => by
    rw [Host.parent, Host.parent, Host.node, Host.node, hquiet.nodes]
  have hcalls₃ : σ₃.host.calls = σ₂.host.calls := by rw [Host.calls, Host.calls, hquiet.mutations]
  have hcount₃ : σ₃.host.count = σ₂.host.count := by rw [Host.count, Host.count, hquiet.nodes]
  -- and so do the items after it
  have hattachedZ : Attached σ₃.host (linksOf (own ++ postsZ ++ [.marker c.parent witness])) := by
    have hperm : (own ++ postsZ ++ postsA' ++ [Post.marker c.parent witness]).Perm
        (own ++ postsZ ++ [Post.marker c.parent witness] ++ postsA') := by
      simp only [List.append_assoc]
      exact (List.perm_append_comm.append_left _).append_left _
    have hall : Attached σ₂.host (linksOf (own ++ postsZ ++ [.marker c.parent witness] ++ postsA')) :=
      hattachedA'.perm (hperm.flatMap_right _)
    rw [linksOf_append _ postsA'] at hall
    exact hall.left.keep hparents
  obtain ⟨hconfinedZ, -⟩ := items_leave hhookless hthird hpairedZ (hheldZ.congr hagree) hnodupZ
    (hcensusZ.congr hheldZ hagree) hattachedZ (hcount₃.symm ▸ Nat.lt_of_lt_of_le hseated.parent hconfinedA.count) hclearR
    ((hunshared.mono fun r hr => hothers ▸ List.mem_append_right _ hr).unheld hpairedZ hheldZ hcensusZ)
    fun posts' hposts' => (hunshared'.mono fun r hr => hothers' ▸ List.mem_append_right _ hr).unheld hpairedZ' hheldZ'
      hposts'
  obtain ⟨ms, hms, htouched⟩ := hconfinedA.calls
  obtain ⟨ms', hms', htouched'⟩ := hconfinedZ.calls
  refine ⟨ms ++ ms', by rw [hms', hcalls₃, hms, List.append_assoc], fun m hm n hn htouches => ?_⟩
  rcases List.mem_append.mp hm with hm | hm
  · exact htouched m hm n htouches (by simp [hhas n hn])
  · exact htouched' m hm n htouches (hhas n hn)

end Items

end Parlance
