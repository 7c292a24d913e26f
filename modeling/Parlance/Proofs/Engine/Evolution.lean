import Parlance.Proofs.Engine.Attending
import Parlance.Proofs.Engine.Movement
import Parlance.Proofs.Engine.Shift
import Parlance.Proofs.Engine.Succession

/-! How outputs evolve. A turn takes slots to others, and it does so by moves that take the posts of the ones to those
of the others, whatever other posts stand before and after them, and every hook gets at most one turn. Evolutions
compose side by side, each in its own place among the posts, and what happens inside a slot happens before the post of
the slot itself. -/

namespace Parlance

open Pass

variable {ω : Type}

/-- Hooks do not make a host forget nodes. -/
def Behaviour.KeepsNodes (b : Behaviour ω) : Prop := ∀ {h w h' w'}, b.Hooks h w h' w' → h.count ≤ h'.count

/-- What has to stand next where something is put before an anchor, or at the end. -/
def Ahead (anchor : Option NodeId) (after : List NodeId) : Prop := after.head? = anchor

/-- The posts of new words are allowed. -/
def Regime.Allowed (ρ : Regime) (posts : List Post) : Prop := ∀ post ∈ posts, ρ.allows post.node post.lexem

/-- The nodes that something may be put under are nodes of the host. -/
structure Grounded (h : Host) (p : NodeId) (posts : List Post) : Prop where
  parent : p.index < h.count
  elements : ∀ n ∈ elementsOf posts, n.index < h.count

/-- The nodes that stand next under a parent are as they should be, unless it is an element of an output itself. -/
def Faces (p : NodeId) (goal : List NodeId → Prop) (left right : List Post) : Prop :=
  p ∉ elementsOf (left ++ right) → goal (topsAt p right)

variable (ρ : Regime) (b : Behaviour ω)

/-- There are moves from posts on to those of slots, whatever other posts there are, and every hook gets its turn. -/
def Reaches (p : NodeId) (goal : List NodeId → Prop) (σ : Stage ω) (posts : List Post) (σ' : Stage ω)
    (lexems : List Lexem) (slots : List Slot) : Prop :=
  ∃ posts', Census ρ σ'.instances p lexems slots posts' ∧ (b.KeepsNodes → ρ.Allowed posts' → ∀ left right,
    Grounded σ.host p posts → Faces p goal left right →
      Moves ρ b σ (left ++ posts ++ right) σ' (left ++ posts' ++ right)) ∧
    Attends ρ b σ.world posts σ'.world posts'

/-- A turn that is made of moves. -/
structure Evolves (p : NodeId) (goal : List NodeId → Prop) (σ : Stage ω) (olds : List Lexem) (slots : List Slot)
    (σ' : Stage ω) (lexems : List Lexem) (slots' : List Slot) : Prop where
  turn : Turn (blind b) σ slots σ' slots'
  moves : ∀ {cs posts}, Holds σ.instances slots cs → cs.Nodup → Census ρ σ.instances p olds slots posts →
    ρ.Follows σ.instances olds slots σ'.instances lexems slots' → Reaches ρ b p goal σ posts σ' lexems slots'

/-- An evolution of outputs with one slot for every lexem. -/
structure EvolvesAll (p : NodeId) (goal : List NodeId → Prop) (σ : Stage ω) (rs : List Rendered) (σ' : Stage ω)
    (rs' : List Rendered) : Prop where
  renewal : Renewal (blind b) σ rs σ' rs'
  evolves : (∀ r ∈ rs, r.Paired) →
    Evolves ρ b p goal σ (lexemsOf rs) (slotsOf rs) σ' (lexemsOf rs') (slotsOf rs')

variable {ρ b} {p : NodeId} {goal goal' : List NodeId → Prop} {σ σ₁ σ' : Stage ω}

namespace Grounded

variable {h h' : Host} {posts posts' : List Post}

theorem mono (hgrounded : Grounded h p posts) (hcount : h.count ≤ h'.count) : Grounded h' p posts :=
  ⟨Nat.lt_of_lt_of_le hgrounded.parent hcount, fun n hn => Nat.lt_of_lt_of_le (hgrounded.elements n hn) hcount⟩

theorem left (hgrounded : Grounded h p (posts ++ posts')) : Grounded h p posts :=
  ⟨hgrounded.parent, fun n hn => hgrounded.elements n (by simp [hn])⟩

theorem right (hgrounded : Grounded h p (posts ++ posts')) : Grounded h p posts' :=
  ⟨hgrounded.parent, fun n hn => hgrounded.elements n (by simp [hn])⟩

end Grounded

theorem Regime.Allowed.split {posts posts' : List Post} (h : ρ.Allowed (posts ++ posts')) :
    ρ.Allowed posts ∧ ρ.Allowed posts' :=
  ⟨fun post hpost => h post (List.mem_append_left _ hpost), fun post hpost => h post (List.mem_append_right _ hpost)⟩

namespace Evolves

variable {olds olds₂ lexems lexems₂ : List Lexem} {slots slots₂ slots' slots₂' : List Slot}

theorem weaken (h : Evolves ρ b p goal' σ olds slots σ' lexems slots') (hgoal : ∀ after, goal after → goal' after) :
    Evolves ρ b p goal σ olds slots σ' lexems slots' where
  turn := h.turn
  moves hholds hnodup hcensus hfollows := by
    obtain ⟨posts', hcensus', hmoves, hattends⟩ := h.moves hholds hnodup hcensus hfollows
    exact ⟨posts', hcensus', fun hnodes hallowed left right hgrounded hfaces =>
      hmoves hnodes hallowed left right hgrounded fun hp => hgoal _ (hfaces hp), hattends⟩

/-- The same slots stay, with the same words. -/
theorem keep (hmoves : ∀ posts, Moves ρ b σ posts σ' posts) (hhushed : Hushed b σ.world σ'.world)
    (hsize : σ'.instances.size = σ.instances.size) (hagree : ∀ id, Agree σ.instances σ'.instances id) :
    Evolves ρ b p goal σ lexems slots σ' lexems slots where
  turn := .keep hsize hagree ⟨fun _ _ _ => trivial, fun _ => trivial⟩
  moves hholds _ hcensus _ :=
    ⟨_, hcensus.congr hholds fun id _ => hagree id, fun _ _ _ _ _ _ => hmoves _, .quiet hhushed fun _ => rfl⟩

theorem refl : Evolves ρ b p goal σ lexems slots σ lexems slots := keep (fun _ => .refl) .refl rfl fun _ => rfl

/-- Evolutions side by side, one after the other. -/
theorem append (hlength : olds.length = slots.length)
    (hfollows : ∀ {t t'}, ρ.Follows t (olds ++ olds₂) (slots ++ slots₂) t' (lexems ++ lexems₂) (slots' ++ slots₂') →
      ρ.Follows t olds slots t' lexems slots' ∧ ρ.Follows t olds₂ slots₂ t' lexems₂ slots₂')
    (hgoal : ∀ {posts after}, Census ρ σ.instances p olds₂ slots₂ posts → p ∉ elementsOf posts → goal after →
      goal' (topsAt p posts ++ after))
    (h : Evolves ρ b p goal' σ olds slots σ₁ lexems slots')
    (h' : Evolves ρ b p goal σ₁ olds₂ slots₂ σ' lexems₂ slots₂') :
    Evolves ρ b p goal σ (olds ++ olds₂) (slots ++ slots₂) σ' (lexems ++ lexems₂) (slots' ++ slots₂') where
  turn := (h.turn.append_right _).trans (h'.turn.append_left _)
  moves hholds hnodup hcensus hwhole := by
    obtain ⟨as, cs, rfl, ha, hc⟩ := hholds.split
    obtain ⟨left₀, right₀, rfl, hleft, hright⟩ := hcensus.split hlength
    obtain ⟨hfirst, hsecond⟩ := hfollows hwhole
    rw [List.nodup_append] at hnodup
    obtain ⟨hnodupA, hnodupC, hdisjoint⟩ := hnodup
    obtain ⟨as', ha', hexchange⟩ := h.turn as ha (mounted_blind hnodupA)
    have hagree : ∀ id ∈ cs, Agree σ.instances σ₁.instances id := fun id hid =>
      hexchange.agree id (hc.index_lt id hid) fun hmem => hdisjoint id hmem id hid rfl
    have hc₁ := hc.congr hagree
    obtain ⟨cs', hc', hexchange'⟩ := h'.turn cs hc₁ (mounted_blind hnodupC)
    have hagree' : ∀ id ∈ as', Agree σ₁.instances σ'.instances id := fun id hid =>
      hexchange'.agree id (ha'.index_lt id hid) fun hmem => by
        rcases hexchange.source id hid with hold | hnew
        · exact hdisjoint id hold id hmem rfl
        · exact absurd (hc.index_lt id hmem) (Nat.not_lt.mpr hnew)
    obtain ⟨posts, hposts, hmoves, hattends⟩ := h.moves ha hnodupA hleft
      (hfirst.congr ha (ha'.congr hagree') (fun _ _ => rfl) fun id hid => Eq.symm (hagree' id hid))
    obtain ⟨posts₂, hposts₂, hmoves₂, hattends₂⟩ := h'.moves hc₁ hnodupC (hright.congr hc hagree)
      (hsecond.congr hc hc' hagree fun _ _ => rfl)
    refine ⟨posts ++ posts₂, (hposts.congr ha' hagree').append hposts₂, ?_, hattends.append hattends₂⟩
    intro hnodes hallowed left right hgrounded hfaces
    obtain ⟨hallowed₁, hallowed₂⟩ := hallowed.split
    have hpart := hmoves hnodes hallowed₁ left (right₀ ++ right) hgrounded.left fun hp => by
      simp only [elementsOf_append, List.mem_append, not_or] at hp
      rw [topsAt_append]
      exact hgoal hright hp.2.1 (hfaces (by simp [hp.1, hp.2.2]))
    have hrest := hmoves₂ hnodes hallowed₂ (left ++ posts) right (hgrounded.right.mono hpart.count_le) fun hp =>
      hfaces fun hmem => hp (by
        simp only [elementsOf_append, List.mem_append] at hmem ⊢
        exact hmem.imp_left .inl)
    simp only [List.append_assoc] at hpart hrest ⊢
    exact hpart.trans hrest

/-- Something new comes after something new. -/
theorem append_new (h : Evolves ρ b p goal σ [] [] σ₁ lexems slots') (h' : Evolves ρ b p goal σ₁ [] [] σ' lexems₂ slots₂') :
    Evolves ρ b p goal σ [] [] σ' (lexems ++ lexems₂) (slots' ++ slots₂') :=
  append rfl (fun _ => ⟨.fresh, .fresh⟩) (fun hcensus _ hafter => by cases hcensus; exact hafter) h h'

/-- Slots are gone before others come, and then these need not follow those. -/
theorem instead {cs : List InstanceId} {posts : List Post} (h : Evolves ρ b p (fun _ => True) σ olds slots σ₁ [] [])
    (h' : Evolves ρ b p goal σ₁ [] [] σ' lexems slots') (hholds : Holds σ.instances slots cs) (hnodup : cs.Nodup)
    (hcensus : Census ρ σ.instances p olds slots posts) : Reaches ρ b p goal σ posts σ' lexems slots' := by
  obtain ⟨_, hgone, hmoves, hattends⟩ := h.moves hholds hnodup hcensus .gone
  cases hgone
  obtain ⟨posts', hposts', hmoves', hattends'⟩ := h'.moves .nil List.nodup_nil .nil .fresh
  refine ⟨posts', hposts', fun hnodes hallowed left right hgrounded hfaces => ?_, hattends.instead hattends'⟩
  have hfirst := hmoves hnodes (by simp [Regime.Allowed]) left right hgrounded fun _ => trivial
  have hparent := Nat.lt_of_lt_of_le hgrounded.parent hfirst.count_le
  exact hfirst.trans (hmoves' hnodes hallowed left right ⟨hparent, by simp [elementsOf]⟩ hfaces)

/-- Slots that come in the place of others, each with as many as there were. -/
theorem beside (hmatched : olds.length = lexems.length) (hlength : olds.length = slots.length)
    (hlength' : lexems.length = slots'.length) (h : Evolves ρ b p (fun _ => True) σ olds slots σ₁ lexems slots')
    (h' : Evolves ρ b p goal σ₁ olds₂ slots₂ σ' lexems₂ slots₂') :
    Evolves ρ b p goal σ (olds ++ olds₂) (slots ++ slots₂) σ' (lexems ++ lexems₂) (slots' ++ slots₂') :=
  append hlength (fun hfollows => hfollows.split hmatched hlength hlength') (fun _ _ _ => trivial) h h'

/-- What is left over is gone after the others have come. -/
theorem shed (hmatched : lexems.length = olds.length) (hlength : olds.length = slots.length)
    (hlength' : lexems.length = slots'.length)
    (hgoal : ∀ {posts after}, Census ρ σ.instances p olds₂ slots₂ posts → p ∉ elementsOf posts → goal after →
      goal' (topsAt p posts ++ after))
    (h : Evolves ρ b p goal' σ olds slots σ₁ lexems slots')
    (h' : Evolves ρ b p goal σ₁ olds₂ slots₂ σ' [] []) :
    Evolves ρ b p goal σ (olds ++ olds₂) (slots ++ slots₂) σ' lexems slots' := by
  have hboth : Evolves ρ b p goal σ (olds ++ olds₂) (slots ++ slots₂) σ' (lexems ++ []) (slots' ++ []) :=
    append hlength (fun hfollows => by
      rw [List.append_nil, List.append_nil] at hfollows
      exact ⟨hfollows.left hlength hmatched hlength', .gone⟩) hgoal h h'
  rwa [List.append_nil, List.append_nil] at hboth

end Evolves

namespace EvolvesAll

variable {rs rs' rs₂ rs₂' : List Rendered}

theorem weaken (h : EvolvesAll ρ b p goal' σ rs σ' rs') (hgoal : ∀ after, goal after → goal' after) :
    EvolvesAll ρ b p goal σ rs σ' rs' := ⟨h.renewal, fun hpaired => (h.evolves hpaired).weaken hgoal⟩

theorem keep (hmoves : ∀ posts, Moves ρ b σ posts σ' posts) (hhushed : Hushed b σ.world σ'.world)
    (hsize : σ'.instances.size = σ.instances.size) (hagree : ∀ id, Agree σ.instances σ'.instances id) :
    EvolvesAll ρ b p goal σ rs σ' rs :=
  ⟨.keep hsize hagree ⟨fun _ _ _ => trivial, fun _ => trivial⟩, fun _ => .keep hmoves hhushed hsize hagree⟩

theorem refl : EvolvesAll ρ b p goal σ rs σ rs := keep (fun _ => .refl) .refl rfl fun _ => rfl

theorem append_new (h : EvolvesAll ρ b p goal σ [] σ₁ rs) (h' : EvolvesAll ρ b p goal σ₁ [] σ' rs') :
    EvolvesAll ρ b p goal σ [] σ' (rs ++ rs') := by
  have hrest := h'.renewal.append_left rs
  rw [List.append_nil] at hrest
  refine ⟨h.renewal.trans hrest, fun _ => ?_⟩
  rw [lexemsOf_append, slotsOf_append]
  exact (h.evolves (by simp)).append_new (h'.evolves (by simp))

/-- One output after another, each in the place of one. -/
theorem beside {old r : Rendered} (hmatched : old.Paired → r.sentence.lexems.length = old.sentence.lexems.length)
    (h : EvolvesAll ρ b p (fun _ => True) σ [old] σ₁ [r]) (h' : EvolvesAll ρ b p goal σ₁ rs σ' rs') :
    EvolvesAll ρ b p goal σ (old :: rs) σ' (r :: rs') := by
  have hrenewal := (h.renewal.append_right rs).trans (h'.renewal.append_left [r])
  refine ⟨hrenewal, fun hpaired => ?_⟩
  have hold := hpaired old List.mem_cons_self
  have hr := (h.renewal (by simpa using hold)).1 r List.mem_cons_self
  have hfirst := h.evolves (by simpa using hold)
  simp only [lexemsOf_cons, slotsOf_cons, lexemsOf_nil, slotsOf_nil, List.append_nil] at hfirst ⊢
  exact hfirst.beside (hmatched hold).symm hold.symm hr.symm
    (h'.evolves fun r' hr' => hpaired r' (List.mem_cons_of_mem _ hr'))

/-- Outputs that are left over are removed at the end. -/
theorem shed (hmatched : (lexemsOf rs').length = (lexemsOf rs).length)
    (h : EvolvesAll ρ b p (fun _ => True) σ rs σ₁ rs') (h' : EvolvesAll ρ b p (fun _ => True) σ₁ rs₂ σ' []) :
    EvolvesAll ρ b p goal σ (rs ++ rs₂) σ' rs' := by
  have hrest := h'.renewal.append_left rs'
  rw [List.append_nil] at hrest
  refine ⟨(h.renewal.append_right rs₂).trans hrest, fun hpaired => ?_⟩
  have hpaired₁ : ∀ r ∈ rs, r.Paired := fun r hr => hpaired r (List.mem_append_left _ hr)
  have hpaired' := (h.renewal hpaired₁).1
  rw [lexemsOf_append, slotsOf_append]
  exact (h.evolves hpaired₁).shed hmatched (length_lexemsOf hpaired₁) (length_lexemsOf hpaired')
    (fun _ _ _ => trivial)
    ((h'.evolves fun r hr => hpaired r (List.mem_append_right _ hr)).weaken fun _ _ => trivial)

end EvolvesAll

section Slots

variable {slot slot' : Slot} {lexem old : Lexem}

/-- A new slot comes after what is inside it has come. -/
theorem Evolves.born (hslot' : ∀ id, slot' ≠ .component id) (hinside : slot'.inside p = p)
    (hsuits : ρ.Suits lexem slot'.mark) (h : EvolvesAll ρ b p goal σ [] σ₁ slot'.parts)
    (hsame : σ'.instances = σ₁.instances)
    (hown : b.KeepsNodes → ρ.allows p lexem → ∀ left right, p.index < σ₁.host.count → Faces p goal left right →
      Moves ρ b σ₁ (left ++ right) σ' (left ++ ⟨p, lexem, slot'.mark⟩ :: right))
    (hattends : Attends ρ b σ₁.world [] σ'.world [⟨p, lexem, slot'.mark⟩]) :
    Evolves ρ b p goal σ [] [] σ' [lexem] [slot'] where
  turn := .born hslot' (h.renewal.trans (.keep (congrArg Array.size hsame) (fun id => by rw [Agree, hsame])
    ⟨fun _ _ _ => trivial, fun _ => trivial⟩))
  moves hholds hnodup hcensus _ := by
    cases hholds
    cases hcensus
    obtain ⟨inner, hinner, hmoves, hinside'⟩ := (h.evolves (by simp)).moves .nil hnodup .nil .fresh
    rw [← hsame] at hinner
    refine ⟨inner ++ [⟨p, lexem, slot'.mark⟩], .part hslot' hsuits (hinside.symm ▸ hinner) .nil, ?_,
      hinside'.append hattends⟩
    intro hnodes hallowed left right hgrounded hfaces
    have hfirst := hmoves hnodes hallowed.split.1 left right hgrounded hfaces
    have hlast := hown hnodes (hallowed ⟨p, lexem, slot'.mark⟩ (by simp)) (left ++ inner) right
      (Nat.lt_of_lt_of_le hgrounded.parent hfirst.count_le) fun hp => hfaces fun hmem => hp (by
        simp only [elementsOf_append, List.mem_append] at hmem ⊢
        exact hmem.imp_left .inl)
    simpa only [List.append_nil, List.append_assoc, List.cons_append, List.nil_append] using hfirst.trans hlast

/-- A new element comes before what is put into it. -/
theorem Evolves.bornElement {anchor : Option NodeId} {f : Host → Host} {kids : List Rendered}
    (hsuits : ρ.Suits lexem (.element σ.host.next))
    (hadds : p.index < σ.host.count → Host.Adds p anchor σ.host (f σ.host))
    (h : EvolvesAll ρ b σ.host.next goal (σ.onHost f) [] σ' kids) :
    Evolves ρ b p (Ahead anchor) σ [] [] σ' [lexem] [.element σ.host.next kids] where
  turn := by
    have hquiet : Renewal (blind b) σ [] (σ.onHost f) [] :=
      .keep rfl (fun _ => rfl) ⟨fun _ _ _ => trivial, fun _ => trivial⟩
    exact .born (by simp) (hquiet.trans h.renewal)
  moves hholds hnodup hcensus _ := by
    cases hholds
    cases hcensus
    obtain ⟨inner, hinner, hmoves, hattends⟩ := (h.evolves (by simp)).moves .nil hnodup .nil .fresh
    refine ⟨inner ++ [⟨p, lexem, .element σ.host.next⟩], .part (by simp) hsuits hinner .nil, ?_,
      hattends.append (.quiet .refl fun _ => rfl)⟩
    intro hnodes hallowed left right hgrounded hfaces
    have hadded := hadds hgrounded.parent
    have hfirst : Moves ρ b σ (left ++ right) (σ.onHost f) (left ++ ⟨p, lexem, .element σ.host.next⟩ :: right) :=
      .one (.raised hgrounded.parent hadded hfaces (hallowed ⟨p, lexem, .element σ.host.next⟩ (by simp)))
    have hlast := hmoves hnodes hallowed.split.1 left (⟨p, lexem, .element σ.host.next⟩ :: right)
      ⟨by rw [Stage.onHost_host, hadded.puts.count]; exact Nat.lt_succ_self _, by simp [elementsOf]⟩
      fun hp => absurd (by simp [elementsOf, Post.element?]) hp
    simp only [List.append_nil, List.append_assoc, List.cons_append, List.nil_append] at hlast ⊢
    exact hfirst.trans hlast

/-- What is inside a slot evolves, and the slot stays. -/
theorem Evolves.part (aim : List NodeId → Prop) (hslot : ∀ id, slot ≠ .component id) (hslot' : ∀ id, slot' ≠ .component id)
    (hmark : slot'.mark = slot.mark) (hinside : slot'.inside p = slot.inside p)
    (hloose : slot.mark.loose = true ∨ ρ.judge slot.mark = none) (hsuits : ρ.Suits old slot.mark → ρ.Suits lexem slot.mark)
    (hgoal : ∀ after, slot.inside p ∉ elementsOf [⟨p, lexem, slot.mark⟩] →
      aim (topsAt (slot.inside p) [⟨p, lexem, slot.mark⟩] ++ after))
    (hrenewal : Renewal (blind b) σ slot.parts σ' slot'.parts)
    (h : ∀ {cs posts}, (∀ r ∈ slot.parts, r.Paired) → Holds σ.instances (slotsOf slot.parts) cs → cs.Nodup →
      Census ρ σ.instances (slot.inside p) (lexemsOf slot.parts) (slotsOf slot.parts) posts →
      ρ.Follows σ.instances [old] [slot] σ'.instances [lexem] [slot'] →
      Reaches ρ b (slot.inside p) aim σ posts σ' (lexemsOf slot'.parts) (slotsOf slot'.parts)) :
    Evolves ρ b p goal σ [old] [slot] σ' [lexem] [slot'] where
  turn := .part hslot hslot' hrenewal
  moves hholds hnodup hcensus hfollows := by
    cases hholds with
    | component => exact absurd rfl (hslot _)
    | part _ hpaired hinner houter =>
    cases houter
    cases hcensus with
    | component => exact absurd rfl (hslot _)
    | @part _ _ _ _ _ inner _ _ hsuitsOld hcensusInner hcensusOuter =>
    cases hcensusOuter
    obtain ⟨inner', hinner', hmoves, hattends⟩ := h hpaired hinner (by simpa using hnodup) hcensusInner hfollows
    refine ⟨inner' ++ [⟨p, lexem, slot'.mark⟩], .part hslot' (hmark ▸ hsuits hsuitsOld) (hinside ▸ hinner') .nil, ?_,
      hattends.append (.quiet .refl fun hheeds => by rw [hmark]; exact hooksOf_renamed hheeds (hloose.imp_right .inl))⟩
    intro hnodes hallowed left right hgrounded hfaces
    have hfirst : Moves ρ b σ (left ++ inner ++ ⟨p, old, slot.mark⟩ :: right) σ
        (left ++ inner ++ ⟨p, lexem, slot.mark⟩ :: right) :=
      .one (.renamed hloose (hallowed ⟨p, lexem, slot'.mark⟩ (by simp)))
    have hground : Grounded σ.host (slot.inside p) inner := by
      refine ⟨?_, hgrounded.left.elements⟩
      cases slot with
      | element n kids => exact hgrounded.elements n (mem_elementsOf.mpr ⟨⟨p, old, .element n⟩, by simp [Slot.mark], rfl⟩)
      | _ => exact hgrounded.parent
    have hlast := hmoves hnodes hallowed.split.1 left (⟨p, lexem, slot.mark⟩ :: right) hground fun hp => by
      have hown : topsAt (slot.inside p) (⟨p, lexem, slot.mark⟩ :: right) =
          topsAt (slot.inside p) [⟨p, lexem, slot.mark⟩] ++ topsAt (slot.inside p) right := by
        rw [← topsAt_append, List.singleton_append]
      rw [hown]
      refine hgoal _ fun hmem => hp ?_
      obtain ⟨post, hpost, hn⟩ := mem_elementsOf.mp hmem
      exact mem_elementsOf.mpr ⟨post, by simp [List.mem_singleton.mp hpost], hn⟩
    rw [hmark]
    simp only [List.append_assoc, List.cons_append, List.nil_append] at hfirst hlast ⊢
    exact hfirst.trans hlast

/-- A slot without parts comes in the place of another one. -/
theorem Evolves.single (hslot : ∀ id, slot ≠ .component id) (hslot' : ∀ id, slot' ≠ .component id)
    (hparts : slot.parts = []) (hparts' : slot'.parts = []) (hsame : σ'.instances = σ.instances)
    (hsuits : ρ.Suits old slot.mark → ρ.Suits lexem slot'.mark)
    (hmoves : b.KeepsNodes → ρ.Suits old slot.mark → (∀ e, ρ.engine = some e → ρ.follows lexem old) →
      ρ.allows p lexem → ∀ left right, p.index < σ.host.count →
        Moves ρ b σ (left ++ ⟨p, old, slot.mark⟩ :: right) σ' (left ++ ⟨p, lexem, slot'.mark⟩ :: right))
    (hattends : Attends ρ b σ.world [⟨p, old, slot.mark⟩] σ'.world [⟨p, lexem, slot'.mark⟩]) :
    Evolves ρ b p goal σ [old] [slot] σ' [lexem] [slot'] where
  turn := by
    refine .part hslot hslot' ?_
    rw [hparts, hparts']
    exact .keep (congrArg Array.size hsame) (fun id => by rw [Agree, hsame]) ⟨fun _ _ _ => trivial, fun _ => trivial⟩
  moves hholds _ hcensus hfollows := by
    cases hcensus with
    | component => exact absurd rfl (hslot _)
    | part _ hsuitsOld hinner houter =>
    cases houter
    rw [hparts] at hinner
    cases hinner
    have hnone : Census ρ σ'.instances (slot'.inside p) (lexemsOf slot'.parts) (slotsOf slot'.parts) [] := by
      rw [hparts']
      exact .nil
    refine ⟨[⟨p, lexem, slot'.mark⟩], .part hslot' (hsuits hsuitsOld) hnone .nil, ?_, hattends⟩
    intro hnodes hallowed left right hgrounded _
    have hown := hmoves hnodes hsuitsOld (fun e he => hfollows.word he) (hallowed _ List.mem_cons_self) left right
      hgrounded.parent
    simpa only [List.append_assoc, List.cons_append, List.nil_append] using hown

/-- A slot stays with what is inside it, and what comes of its own post is told by how the words follow. -/
theorem Evolves.reworded (hhushed : Hushed b σ.world σ'.world) (hsize : σ'.instances.size = σ.instances.size)
    (hagree : ∀ id, Agree σ.instances σ'.instances id)
    (hsuits : ∀ {mark : Mark}, mark.loose = true → ρ.Suits old mark → ρ.Suits lexem mark)
    (hkept : ∀ {mark : Mark}, (∀ e, ρ.engine = some e → ρ.follows lexem old) → ρ.Suits old mark →
      mark.loose = true ∨ ρ.judge mark = none ∨ lexem = old)
    (hmoves : ∀ {mark : Mark}, ρ.Suits old mark → mark.loose = true ∨ ρ.judge mark = none ∨ lexem = old →
      ρ.allows p lexem → ∀ left right : List Post,
        Moves ρ b σ (left ++ ⟨p, old, mark⟩ :: right) σ' (left ++ ⟨p, lexem, mark⟩ :: right)) :
    Evolves ρ b p goal σ [old] [slot] σ' [lexem] [slot] where
  turn := .keep hsize hagree ⟨fun _ _ _ => trivial, fun _ => trivial⟩
  moves hholds _ hcensus hfollows := by
    have hrename : ∀ {mark : Mark}, ρ.Suits old mark → ρ.Suits lexem mark ∧
        Attends ρ b σ.world [⟨p, old, mark⟩] σ'.world [⟨p, lexem, mark⟩] ∧ (ρ.allows p lexem → ∀ left right : List Post,
          Moves ρ b σ (left ++ ⟨p, old, mark⟩ :: right) σ' (left ++ ⟨p, lexem, mark⟩ :: right)) := by
      intro mark hold
      have hword := hkept (fun e he => hfollows.word he) hold
      refine ⟨?_, .quiet hhushed fun hheeds => hooksOf_renamed hheeds hword, hmoves hold hword⟩
      rcases hword with hloose | hnone | rfl
      · exact hsuits hloose hold
      · exact fun e he => by simp [hnone] at he
      · exact hold
    have hcensus' := hcensus.congr hholds fun id _ => hagree id
    cases hcensus' with
    | @part _ _ _ _ _ inner _ hslot hold hinner houter =>
        cases houter
        obtain ⟨hnew, hattends, hword⟩ := hrename hold
        refine ⟨inner ++ [⟨p, lexem, slot.mark⟩], .part hslot hnew hinner .nil, fun _ hallowed left right _ _ => ?_,
          Attends.refl.append hattends⟩
        have hown := hword (hallowed ⟨p, lexem, slot.mark⟩ (by simp)) (left ++ inner) right
        simpa only [List.append_assoc, List.cons_append, List.nil_append] using hown
    | @component _ witness _ _ _ _ _ _ inner _ hpresent hparent hadmits hwitness hdeveloped hold hinner houter =>
        cases houter
        obtain ⟨hnew, hattends, hword⟩ := hrename hold
        refine ⟨inner ++ [⟨p, lexem, .nodes [witness]⟩],
          .component hpresent hparent hadmits hwitness hdeveloped hnew hinner .nil, fun _ hallowed left right _ _ => ?_,
          Attends.refl.append hattends⟩
        have hown := hword (hallowed ⟨p, lexem, .nodes [witness]⟩ (by simp)) (left ++ inner) right
        simpa only [List.append_assoc, List.cons_append, List.nil_append] using hown

/-- A slot stays with what is inside it, and perhaps under another word. -/
theorem Evolves.renamed (hmoves : ∀ posts, Moves ρ b σ posts σ' posts) (hhushed : Hushed b σ.world σ'.world)
    (hsize : σ'.instances.size = σ.instances.size) (hagree : ∀ id, Agree σ.instances σ'.instances id)
    (hsuits : ∀ {mark : Mark}, mark.loose = true → ρ.Suits old mark → ρ.Suits lexem mark)
    (hkept : ∀ {mark : Mark}, (∀ e, ρ.engine = some e → ρ.follows lexem old) → ρ.Suits old mark →
      mark.loose = true ∨ ρ.judge mark = none ∨ lexem = old) :
    Evolves ρ b p goal σ [old] [slot] σ' [lexem] [slot] := by
  refine .reworded hhushed hsize hagree hsuits hkept fun _ hword hallows left right => ?_
  rcases hword with hloose | hnone | rfl
  · exact (Moves.one (.renamed (.inl hloose) hallows)).trans (hmoves _)
  · exact (Moves.one (.renamed (.inr hnone) hallows)).trans (hmoves _)
  · exact hmoves _

end Slots

end Parlance
