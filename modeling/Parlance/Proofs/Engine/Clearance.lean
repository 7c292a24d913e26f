import Parlance.Proofs.Engine.Detaching
import Parlance.Proofs.Engine.Evolution

/-! Removing an output by moves. The hooks go first, wherever they stand; then the components are told, and everything
else is taken back post by post, in the order in which the posts stand. What stands inside an element goes with it. -/

namespace Parlance

open Pass

variable {ω : Type} {ρ : Regime} {b : Behaviour ω}

/-- Posts without those of hooks. -/
def stillOf (posts : List Post) : List Post := posts.filter (!·.mark.isHook)

section Still

variable {posts posts' : List Post}

@[simp] theorem stillOf_append : stillOf (posts ++ posts') = stillOf posts ++ stillOf posts' := List.filter_append ..

theorem stillOf_cons (post : Post) : stillOf (post :: posts) = stillOf [post] ++ stillOf posts := by
  rw [← stillOf_append, List.singleton_append]

theorem stillOf_nodes (q : NodeId) (lexem : Lexem) (ns : List NodeId) :
    stillOf [⟨q, lexem, .nodes ns⟩] = [⟨q, lexem, .nodes ns⟩] := rfl

theorem mem_stillOf {post : Post} : post ∈ stillOf posts ↔ post ∈ posts ∧ ∀ n, post.mark ≠ .hook n := by
  rw [stillOf, List.mem_filter]
  cases hmark : post.mark <;> simp [Mark.isHook]

/-- No element is a hook. -/
theorem elementsOf_stillOf (posts : List Post) : elementsOf (stillOf posts) = elementsOf posts := by
  induction posts with
  | nil => rfl
  | cons post posts ih =>
      have happend : elementsOf (post :: posts) = elementsOf [post] ++ elementsOf posts := by
        rw [← elementsOf_append, List.singleton_append]
      rw [stillOf_cons, elementsOf_append, ih, happend]
      obtain ⟨q, lexem, mark⟩ := post
      cases mark <;> rfl

end Still

variable {t : Array Instance} {slots : List Slot} {cs : List InstanceId} {p : NodeId} {lexem : Lexem} {slot : Slot}

/-- A hook is told, if there is one to tell. -/
theorem hook_clears {within : InstanceId → Pass ω (List InstanceId)} {σ σ' : Stage ω} {n : NodeId}
    {found : List InstanceId} (left right : List Post) (hsuits : ρ.Suits lexem (.hook n))
    (h : (Slot.hook n).seek b within lexem σ = .ok found σ') :
    (b.KeepsNodes → Moves ρ b σ (left ++ ⟨p, lexem, .hook n⟩ :: right) σ' (left ++ right)) ∧
      Attends ρ b σ.world [⟨p, lexem, .hook n⟩] σ'.world [] := by
  cases hhook : lexem.hookArg with
  | ok hook =>
      simp only [Slot.seek, hhook, bind_eq_ok, actOnHost_eq_ok, pure_eq_ok] at h
      obtain ⟨_, _, ⟨h', w, hcall, rfl⟩, -, rfl⟩ := h
      exact ⟨fun hnodes => .one (.unhooked hhook (hnodes (.remove hcall)) hcall),
        .turn (.removed hhook) rfl rfl fun ear => ear.remove hcall⟩
  | error err =>
      simp only [Slot.seek, hhook, pure_eq_ok] at h
      obtain ⟨-, rfl⟩ := h
      cases hengine : ρ.judge (.hook n) with
      | none =>
          exact ⟨fun _ => .one (.forgotten hengine rfl), .quiet .refl fun hheeds => absurd hengine (hheeds n)⟩
      | some e =>
          cases hsuits e hengine with
          | hook _ _ hok => simp [hhook] at hok

/-- While components are sought, the posts of hooks go. -/
theorem seekSlots_clears (hholds : Holds t slots cs) :
    ∀ {σ σ' : Stage ω} {p : NodeId} {depth : Nat} {lexems : List Lexem} {found : List InstanceId} {posts : List Post}
      (left right : List Post), σ.instances = t → (∀ id ∈ cs, t.size ≤ depth + id.index) →
      Census ρ t p lexems slots posts → seekSlots b (seekComponent b depth) lexems slots σ = .ok found σ' →
      (b.KeepsNodes → Moves ρ b σ (left ++ posts ++ right) σ' (left ++ stillOf posts ++ right)) ∧
        Attends ρ b σ.world posts σ'.world (stillOf posts) := by
  induction hholds with
  | nil =>
      intro σ σ' p depth lexems found posts left right _ _ hcensus h
      cases hcensus
      obtain ⟨-, rfl⟩ := pure_eq_ok.mp h
      exact ⟨fun _ => .refl, .refl⟩
  | @part slot slots innerIds outerIds hslot hpaired hinner _ ihinner ihouter =>
      intro σ σ' p depth lexems found posts left right htable hdepth hcensus h
      cases hcensus with
      | component => exact absurd rfl (hslot _)
      | @part _ lexem _ lexems _ inner outer _ hsuits hcensusInner hcensusOuter =>
      simp only [seekSlots, bind_eq_ok, pure_eq_ok] at h
      obtain ⟨own, σ₁, hown, rest, σ₂, hrest, rfl, rfl⟩ := h
      have hstep : σ₁.instances = t ∧
          (b.KeepsNodes → Moves ρ b σ (left ++ (inner ++ ⟨p, lexem, slot.mark⟩ :: outer) ++ right) σ₁
            (left ++ (stillOf inner ++ stillOf [⟨p, lexem, slot.mark⟩] ++ outer) ++ right)) ∧
          Attends ρ b σ.world (inner ++ [⟨p, lexem, slot.mark⟩]) σ₁.world
            (stillOf inner ++ stillOf [⟨p, lexem, slot.mark⟩]) := by
        by_cases hhook : ∃ n, slot = .hook n
        · obtain ⟨n, rfl⟩ := hhook
          obtain rfl : inner = [] := by cases hcensusInner; rfl
          have hone : (b.KeepsNodes → Moves ρ b σ (left ++ ⟨p, lexem, .hook n⟩ :: (outer ++ right)) σ₁
              (left ++ (outer ++ right))) ∧ Attends ρ b σ.world [⟨p, lexem, .hook n⟩] σ₁.world [] :=
            hook_clears left (outer ++ right) hsuits hown
          have htable₁ : σ₁.instances = t := by
            rcases Slot.seek_part hslot hown with hparts | ⟨-, -, hunhooking⟩
            · simp only [Slot.parts, seekAll, pure_eq_ok] at hparts
              exact hparts.2 ▸ htable
            · exact hunhooking.instances_eq.trans htable
          exact ⟨htable₁, by simpa [stillOf, Mark.isHook, Slot.mark] using hone⟩
        · have hstays : stillOf [(⟨p, lexem, slot.mark⟩ : Post)] = [⟨p, lexem, slot.mark⟩] := by
            cases slot <;> first | rfl | exact absurd ⟨_, rfl⟩ hhook
          rcases Slot.seek_part hslot hown with hparts | ⟨hn, -, -⟩
          · rw [seekAll_eq hpaired] at hparts
            have hdepth' : ∀ id ∈ innerIds, t.size ≤ depth + id.index := fun id hid => hdepth id (by simp [hid])
            obtain ⟨hmoves, hattends⟩ :=
              ihinner left (⟨p, lexem, slot.mark⟩ :: outer ++ right) htable hdepth' hcensusInner hparts
            obtain ⟨-, hunhooking⟩ := seekSlots_ok (htable ▸ hinner) rfl (length_lexemsOf hpaired)
              (htable ▸ hdepth') hparts
            rw [hstays]
            exact ⟨hunhooking.instances_eq.trans htable, fun hnodes => by simpa using hmoves hnodes,
              hattends.append .refl⟩
          · exact absurd hn hhook
      obtain ⟨htable₁, hfirst, hattends⟩ := hstep
      obtain ⟨hlast, hattends'⟩ := ihouter (left ++ (stillOf inner ++ stillOf [⟨p, lexem, slot.mark⟩])) right htable₁
        (fun id hid => hdepth id (by simp [hid])) hcensusOuter hrest
      have hboth := hattends.append hattends'
      rw [stillOf_append, stillOf_cons]
      simp only [List.append_assoc, List.cons_append, List.nil_append] at hfirst hlast hboth ⊢
      exact ⟨fun hnodes => (hfirst hnodes).trans (hlast hnodes), hboth⟩
  | @component id i r slots innerIds outerIds hpresent hdeveloped hpaired hlater hinner _ ihinner ihouter =>
      intro σ σ' p depth lexems found posts left right htable hdepth hcensus h
      cases hcensus with
      | part hslot => exact absurd rfl (hslot _)
      | @component _ witness lexem _ i₁ r₁ lexems _ inner outer hpresent₁ hparent _ hwitness hdeveloped₁ hsuits
          hcensusInner hcensusOuter =>
      rw [hpresent] at hpresent₁
      cases hpresent₁
      rw [hdeveloped] at hdeveloped₁
      cases hdeveloped₁
      simp only [seekSlots, bind_eq_ok, pure_eq_ok] at h
      obtain ⟨own, σ₁, hown, rest, σ₂, hrest, rfl, rfl⟩ := h
      have hstep : σ₁.instances = t ∧
          (b.KeepsNodes → Moves ρ b σ (left ++ (inner ++ ⟨p, lexem, .nodes [witness]⟩ :: outer) ++ right) σ₁
            (left ++ (stillOf inner ++ ⟨p, lexem, .nodes [witness]⟩ :: outer) ++ right)) ∧
          Attends ρ b σ.world inner σ₁.world (stillOf inner) := by
        cases depth with
        | zero =>
            have hlt := (Array.getElem?_eq_some_iff.mp hpresent).1
            exact absurd (hdepth id (by simp)) (by omega)
        | succ depth =>
            simp only [Slot.seek, seekComponent, bind_eq_ok, instances_eq_ok] at hown
            obtain ⟨_, _, ⟨rfl, rfl⟩, hown⟩ := hown
            rw [htable, hpresent] at hown
            simp only [hdeveloped, bind_eq_ok, pure_eq_ok] at hown
            obtain ⟨mine, σ₃, hmine, rfl, rfl⟩ := hown
            rw [seekWith_eq] at hmine
            have hdepth' : ∀ child ∈ innerIds, t.size ≤ depth + child.index := by
              intro child hchild
              have hchild := hlater child hchild
              have hid := hdepth id (by simp)
              omega
            obtain ⟨hmoves, hattends⟩ :=
              ihinner left (⟨p, lexem, .nodes [witness]⟩ :: outer ++ right) htable hdepth' hcensusInner hmine
            obtain ⟨-, hunhooking⟩ := seekSlots_ok (htable ▸ hinner) rfl hpaired.symm (htable ▸ hdepth') hmine
            exact ⟨hunhooking.instances_eq.trans htable, fun hnodes => by simpa using hmoves hnodes, hattends⟩
      obtain ⟨htable₁, hfirst, hattends⟩ := hstep
      obtain ⟨hlast, hattends'⟩ := ihouter (left ++ (stillOf inner ++ [⟨p, lexem, .nodes [witness]⟩])) right htable₁
        (fun child hchild => hdepth child (by simp [hchild])) hcensusOuter hrest
      have hmarker : Attends ρ b σ₁.world [⟨p, lexem, .nodes [witness]⟩] σ₁.world [⟨p, lexem, .nodes [witness]⟩] := .refl
      have hboth := hattends.append (hmarker.append hattends')
      rw [stillOf_append, stillOf_cons, stillOf_nodes]
      simp only [List.append_assoc, List.cons_append, List.nil_append] at hfirst hlast hboth ⊢
      exact ⟨fun hnodes => (hfirst hnodes).trans (hlast hnodes), hboth⟩

/-- What a plain slot has of its own is taken back after what is inside it. -/
theorem Slot.detach_moves {within : InstanceId → Host → Host} {σ : Stage ω} (left right : List Post)
    (hslot : slot.Plain) (hp : p.index < (detachAll within p σ.host slot.parts).count)
    (hsuits : ρ.Suits lexem slot.mark) :
    Moves ρ b (σ.onHost fun h => detachAll within p h slot.parts)
      (left ++ (stillOf [⟨p, lexem, slot.mark⟩] ++ right)) (σ.onHost fun h => slot.detach within p lexem h)
      (left ++ right) := by
  have hclosed : ∀ {τ : Stage ω}, Moves ρ b τ (left ++ ⟨p, lexem, .nodes []⟩ :: right) τ (left ++ right) :=
    .one .closed
  have htaken : ∀ {τ : Stage ω} {ns : List NodeId} {h : Host}, Host.Drops p ns τ.host h →
      Moves ρ b τ (left ++ ⟨p, lexem, .nodes ns⟩ :: right) (τ.onHost fun _ => h) (left ++ right) := by
    intro τ ns h hdrops
    have htake : Move ρ b τ (left ++ ⟨p, lexem, .nodes (ns ++ [])⟩ :: right) (τ.onHost fun _ => h)
        (left ++ ⟨p, lexem, .nodes []⟩ :: right) := .taken hdrops
    rw [List.append_nil] at htake
    exact (Moves.one htake).trans hclosed
  cases slot with
  | element | component => exact hslot.elim
  | skipped | effect => exact hclosed
  | compound => exact hclosed
  | hook n => exact .refl
  | «attribute» =>
      cases hengine : ρ.judge .entries with
      | some e => exact .one (.cleared hp hengine (hsuits e hengine))
      | none =>
          have hcleared : Move ρ b _ (left ++ ⟨p, lexem, .entries⟩ :: right) _ (left ++ ⟨p, lexem, .entries⟩ :: right) :=
            .shown hengine hengine (lexem.clear_strokes p σ.host) (fun _ hπ => .inl (Lexem.names_of_clear hπ)) (.inl rfl)
          exact (Moves.one hcleared).trans (.one (.forgotten hengine rfl))
  | listener id => exact .one .unbound
  | text n => exact htaken (.one n σ.host)
  | branch witness developed => cases developed <;> exact htaken (.one witness _)
  | each witness items => exact htaken (.one witness _)
  | raw witness nodes => exact htaken ((Host.Drops.all nodes σ.host).trans (.one witness _))

/-- Detaching slots takes back what their posts say, but for hooks. -/
theorem detachSlots_moves (hholds : Holds t slots cs) :
    ∀ {σ : Stage ω} {p : NodeId} {depth : Nat} {lexems : List Lexem} {posts : List Post} (left right : List Post),
      (∀ id ∈ cs, t.size ≤ depth + id.index) → Census ρ t p lexems slots posts → p.index < σ.host.count →
      Moves ρ b σ (left ++ (stillOf posts ++ right))
        (σ.onHost fun h => detachSlots (detachComponent t depth) p h lexems slots) (left ++ right) := by
  induction hholds with
  | nil =>
      intro σ p depth lexems posts left right _ hcensus _
      cases hcensus
      rw [show (σ.onHost fun h => detachSlots (detachComponent t depth) p h [] []) = σ by simp [Stage.onHost, detachSlots]]
      exact .refl
  | @part slot slots innerIds outerIds hslot hpaired hinner _ ihinner ihouter =>
      intro σ p depth lexems posts left right hdepth hcensus hp
      cases hcensus with
      | component => exact absurd rfl (hslot _)
      | @part _ lexem _ lexems _ inner outer _ hsuits hcensusInner hcensusOuter =>
      have hown : Moves ρ b σ (left ++ (stillOf (inner ++ [⟨p, lexem, slot.mark⟩]) ++ (stillOf outer ++ right)))
          (σ.onHost fun h => slot.detach (detachComponent t depth) p lexem h) (left ++ (stillOf outer ++ right)) := by
        by_cases hplain : slot.Plain
        · have hinside : slot.inside p = p := by cases slot <;> first | rfl | exact hplain.elim
          rw [hinside] at hcensusInner
          have hparts := ihinner left (stillOf [⟨p, lexem, slot.mark⟩] ++ (stillOf outer ++ right))
            (fun id hid => hdepth id (by simp [hid])) hcensusInner hp
          simp only [← detachAll_eq hpaired] at hparts
          have hlast := Slot.detach_moves (b := b) left (stillOf outer ++ right) hplain
            (Nat.lt_of_lt_of_le hp hparts.count_le) hsuits
          simp only [stillOf_append, List.append_assoc]
          exact hparts.trans hlast
        · cases slot with
          | component id => exact absurd rfl (hslot id)
          | element n kids =>
              have hnodes := hcensusInner.node_mem
              simp only [stillOf_append, List.append_assoc]
              refine .one (.dropped (fun post hpost => ?_) (fun post hpost => (mem_stillOf.mp hpost).2)
                (.one n σ.host))
              rw [elementsOf_stillOf]
              exact hnodes post (mem_stillOf.mp hpost).1
          | _ => exact absurd trivial hplain
      have hlast := ihouter left right (fun id hid => hdepth id (by simp [hid])) hcensusOuter
        (Nat.lt_of_lt_of_le hp hown.count_le)
      rw [show inner ++ ⟨p, lexem, slot.mark⟩ :: outer = (inner ++ [⟨p, lexem, slot.mark⟩]) ++ outer by simp,
        stillOf_append, List.append_assoc]
      simp only [detachSlots]
      exact hown.trans hlast
  | @component id i r slots innerIds outerIds hpresent hdeveloped hpaired hlater hinner _ ihinner ihouter =>
      intro σ p depth lexems posts left right hdepth hcensus hp
      cases hcensus with
      | part hslot => exact absurd rfl (hslot _)
      | @component _ witness lexem _ i₁ r₁ lexems _ inner outer hpresent₁ hparent _ hwitness hdeveloped₁ hsuits
          hcensusInner hcensusOuter =>
      rw [hpresent] at hpresent₁
      cases hpresent₁
      rw [hdeveloped] at hdeveloped₁
      cases hdeveloped₁
      have hown : Moves ρ b σ (left ++ (stillOf (inner ++ [⟨p, lexem, .nodes [witness]⟩]) ++ (stillOf outer ++ right)))
          (σ.onHost fun h => (Slot.component id).detach (detachComponent t depth) p lexem h)
          (left ++ (stillOf outer ++ right)) := by
        cases depth with
        | zero =>
            have hlt := (Array.getElem?_eq_some_iff.mp hpresent).1
            exact absurd (hdepth id (by simp)) (by omega)
        | succ depth =>
            have hdepth' : ∀ child ∈ innerIds, t.size ≤ depth + child.index := by
              intro child hchild
              have hchild := hlater child hchild
              have hid := hdepth id (by simp)
              omega
            have hparts := ihinner left (⟨p, lexem, .nodes [witness]⟩ :: (stillOf outer ++ right)) hdepth'
              hcensusInner hp
            have htake : Move ρ b (σ.onHost fun h => detachSlots (detachComponent t depth) p h r.sentence.lexems r.slots)
                (left ++ ⟨p, lexem, .nodes ([witness] ++ [])⟩ :: (stillOf outer ++ right)) _
                (left ++ ⟨p, lexem, .nodes []⟩ :: (stillOf outer ++ right)) := .taken (.one witness _)
            have hlast := (Moves.one htake).trans (.one .closed)
            simp only [Slot.detach, detachComponent, hpresent, hdeveloped, hwitness, hparent, detachWith_eq]
            simp only [stillOf_append, stillOf_nodes, List.append_assoc, List.cons_append, List.nil_append]
            exact hparts.trans hlast
      have hlast := ihouter left right (fun child hchild => hdepth child (by simp [hchild])) hcensusOuter
        (Nat.lt_of_lt_of_le hp hown.count_le)
      rw [show inner ++ ⟨p, lexem, .nodes [witness]⟩ :: outer = (inner ++ [⟨p, lexem, .nodes [witness]⟩]) ++ outer by
        simp, stillOf_append, List.append_assoc]
      simp only [detachSlots]
      exact hown.trans hlast

variable {σ σ' : Stage ω} {goal : List NodeId → Prop}

/-- No hook is left where there are no posts of hooks. -/
theorem hooksOf_stillOf (posts : List Post) : hooksOf (stillOf posts) = [] := by
  refine List.filterMap_eq_nil_iff.mpr fun post hpost => ?_
  obtain ⟨q, lexem, mark⟩ := post
  cases mark with
  | hook n => exact absurd rfl ((mem_stillOf.mp hpost).2 n)
  | _ => rfl

/-- Removing slots is a row of moves that leaves no post, and every hook is told. -/
theorem removal_reaches {lexems : List Lexem} {found : List InstanceId} {posts : List Post} {σ₁ : Stage ω}
    (hholds : Holds σ.instances slots cs)
    (hseek : seekSlots b (seekComponent b σ.instances.size) lexems slots σ = .ok found σ₁)
    (h : unmounting b found (fun table h => detachSlots (detachComponent table table.size) p h lexems slots) σ₁ =
      .ok () σ') (hcensus : Census ρ σ.instances p lexems slots posts) : Reaches ρ b p goal σ posts σ' [] [] := by
  have hdepth : ∀ id ∈ cs, σ.instances.size ≤ σ.instances.size + id.index := fun id _ => Nat.le_add_right _ _
  obtain ⟨rfl, hunhooking⟩ := seekSlots_ok hholds rfl hcensus.length_eq hdepth hseek
  obtain ⟨w₁, w₂, hwill, hdid, rfl⟩ := unmounting_ok h
  refine ⟨[], .nil, fun hnodes _ left right hgrounded _ => ?_, ?_⟩
  · have hhooks := (seekSlots_clears hholds left right rfl hdepth hcensus hseek).1 hnodes
    have hp₁ : p.index < (σ₁.inWorld w₁).host.count := Nat.lt_of_lt_of_le hgrounded.parent hhooks.count_le
    have htaken : Moves ρ b (σ₁.inWorld w₁) _ _ _ := detachSlots_moves hholds left right hdepth hcensus hp₁
    rw [← List.append_assoc] at htaken
    have hleft : Moves ρ b σ (left ++ posts ++ right) _ (left ++ right) :=
      (hhooks.trans (.told hwill rfl)).trans htaken
    rw [hunhooking.instances_eq, List.append_nil]
    have hendure : Endure σ₁.instances (unmountAll σ.instances found) := hunhooking.instances_eq ▸ .unmountAll _ _
    exact hleft.trans ((Moves.told hdid rfl).trans (.one (.tabled _ hendure)))
  · have hattends := (seekSlots_clears hholds [] [] rfl hdepth hcensus hseek).2
    have hgone := hattends.before ((Hushed.told hwill).trans (.told hdid))
    intro hheeds ear
    have hcalls := hgone hheeds ear
    rwa [hooksOf_stillOf] at hcalls

/-- Removing an output takes all of it back. -/
theorem teardown_evolves {r : Rendered} (h : teardown b p r σ = .ok () σ') : EvolvesAll ρ b p goal σ [r] σ' [] := by
  have hrenewal := teardown_renewal (Watch.blind b) h
  refine ⟨hrenewal, fun hpaired => ⟨(hrenewal hpaired).2, fun {cs posts} hholds _ hcensus _ => ?_⟩⟩
  simp only [lexemsOf_cons, slotsOf_cons, lexemsOf_nil, slotsOf_nil, List.append_nil] at hholds hcensus
  simp only [teardown, bind_eq_ok, instances_eq_ok] at h
  obtain ⟨_, _, ⟨rfl, rfl⟩, found, σ₁, hfound, h⟩ := h
  rw [seekWith_eq] at hfound
  simp only [detachWith_eq] at h
  exact removal_reaches hholds hfound h hcensus

/-- So does removing a single slot. -/
theorem teardownSlot_evolves (h : teardownSlot b p lexem slot σ = .ok () σ') :
    Evolves ρ b p goal σ [lexem] [slot] σ' [] [] := by
  refine ⟨teardownSlot_turn (Watch.blind b) h, fun {cs posts} hholds _ hcensus _ => ?_⟩
  simp only [teardownSlot, bind_eq_ok, instances_eq_ok] at h
  obtain ⟨_, _, ⟨rfl, rfl⟩, found, σ₁, hfound, h⟩ := h
  have hslots : seekSlots b (seekComponent b σ.instances.size) [lexem] [slot] σ = .ok found σ₁ := by
    simp only [seekSlots, bind_eq_ok, pure_eq_ok]
    exact ⟨found, σ₁, hfound, [], σ₁, ⟨rfl, rfl⟩, List.append_nil _, rfl⟩
  have hdetach : unmounting b found (fun table h => detachSlots (detachComponent table table.size) p h [lexem] [slot])
      σ₁ = .ok () σ' := by simpa only [detachSlots] using h
  exact removal_reaches hholds hslots hdetach hcensus

/-- Removing what is left over. -/
theorem teardowns_evolves {rs : List Rendered} (h : Sweep (teardown b p) rs σ σ') :
    EvolvesAll ρ b p (fun _ => True) σ rs σ' [] := by
  induction h with
  | nil => exact .refl
  | cons head _ ih =>
      have hfirst : EvolvesAll ρ b p (fun _ => True) _ [_] _ [] := teardown_evolves head
      have hrest := ih
      refine ⟨(hfirst.renewal.append_right _).trans hrest.renewal, fun hpaired => ?_⟩
      have hr := hpaired _ List.mem_cons_self
      have hone := hfirst.evolves (by simpa using hr)
      simp only [lexemsOf_cons, slotsOf_cons, lexemsOf_nil, slotsOf_nil, List.append_nil] at hone ⊢
      have hrs := hrest.evolves fun r' hr' => hpaired r' (List.mem_cons_of_mem _ hr')
      have hboth : Evolves ρ b p (fun _ => True) _ _ _ _ ([] ++ []) ([] ++ []) :=
        hone.append hr.symm (fun _ => ⟨.gone, .gone⟩) (fun _ _ _ => trivial) hrs
      exact hboth

end Parlance
