import Parlance.Proofs.Engine.Detaching

/-! Every pass is a shift: rendering puts a block where the cursor points, a diff leaves the block of an output
where it is, and nothing else changes among the children of any node. As for turns, the steps of one lexem
are gone through case by case. -/

namespace Parlance

open Pass

variable {ω : Type} {b : Behaviour ω} {T : Territory b}
variable {σ σ₁ σ' : Stage ω} {e : Engine} {c : Cursor} {lexem old : Lexem} {p : NodeId} {aim : Aim}

namespace Host

variable {h : Host}

theorem putElement_puts (tag : String) (hparent : c.parent.index < h.count) :
    Puts c.parent c.anchor h (h.putElement c tag) := putNode_puts (.element tag) hparent

theorem putText_puts (value : String) (hparent : c.parent.index < h.count) :
    Puts c.parent c.anchor h (h.putText c value) := putNode_puts (.text value) hparent

theorem putMarker_puts (label : String) (hparent : c.parent.index < h.count) :
    Puts c.parent c.anchor h (h.putMarker c label) := putNode_puts (.marker label) hparent

end Host

section Stages

variable {slots : List Slot} {rs : List Rendered}

theorem Shift.onHost {f : Host → Host} (h : Host.SameTree σ.host (f σ.host)) :
    Shift T p aim σ slots (σ.onHost f) slots := .keep (.onHost h) rfl fun _ => rfl

theorem ShiftAll.onHost {f : Host → Host} (h : Host.SameTree σ.host (f σ.host)) :
    ShiftAll T p aim σ rs (σ.onHost f) rs := .keep (.onHost h) rfl fun _ => rfl

theorem Shift.inWorld {w : ω} (h : b.Acts σ.world w) : Shift T p aim σ slots (σ.inWorld w) slots :=
  .keep (.inWorld h) rfl fun _ => rfl

theorem Shift.hooked {h : Host} {w : ω} (hbare : ¬ T.bare) (hcall : b.Hooks σ.host σ.world h w) :
    Shift T p aim σ slots ((σ.onHost fun _ => h).inWorld w) slots := .keep (.hooked hbare hcall) rfl fun _ => rfl

/-- An evaluation in the world moves nothing. -/
theorem ShiftAll.evaluation {α : Type} {m : Pass ω α} {a : α} {w : ω}
    (hinWorld : ∀ {σ'}, m σ = .ok a σ' → ∃ w, σ' = σ.inWorld w ∧ Evaluation b σ.world w)
    (h : m σ = .ok a (σ.inWorld w)) : ShiftAll T p aim σ rs (σ.inWorld w) rs := by
  obtain ⟨w', heq, hevaluation⟩ := hinWorld h
  obtain rfl : w = w' := congrArg Stage.world heq
  exact .keep (.evaluation hevaluation) rfl fun _ => rfl

theorem nameNode_shift (h : Engine.nameNode c lexem σ = .ok () σ') : Shift T p aim σ slots σ' slots := by
  obtain ⟨t, rfl, hsize, hagree⟩ := nameNode_ok h
  exact .keep ((Undisturbed.refl σ).inTable t) hsize hagree

theorem chain_shift {α : Type} {anchor : Option NodeId} {f : α → Pass ω Rendered} {as : List α}
    (hstep : ∀ {a σ r σ'}, f a σ = .ok r σ' → T.Suits r.slots → ShiftAll T p (At anchor) σ [] σ' [r])
    (hsuits : T.Suits (slotsOf rs)) (h : Chain f as σ rs σ') : ShiftAll T p (At anchor) σ [] σ' rs := by
  induction h with
  | nil => exact .refl
  | cons head _ ih => exact (hstep head hsuits.left).trans ((ih hsuits.right).append_at [_])

/-- What is new among outputs comes at their end, before what is left over. -/
theorem matching_shift {α : Type} {anchor : Option NodeId} {new : α → Stage ω → Rendered → Stage ω → Prop}
    {kept : α → Rendered → Stage ω → Rendered → Stage ω → Prop} {as : List α} {olds rest : List Rendered}
    (hnew : ∀ {a σ r σ'}, new a σ r σ' → T.Suits r.slots → ShiftAll T p (At anchor) σ [] σ' [r])
    (hkept : ∀ {a old σ r σ'}, kept a old σ r σ' → T.Suits old.slots → T.Suits r.slots →
      ShiftAll T p Anywhere σ [old] σ' [r])
    (holds : T.Suits (slotsOf olds)) (hsuits : T.Suits (slotsOf rs))
    (h : Engine.Matching new kept as olds σ rs rest σ') :
    ShiftAll T p (At anchor) σ olds σ' (rs ++ rest) ∧ T.Suits (slotsOf rest) := by
  induction h with
  | rest => exact ⟨.refl, holds⟩
  | new head _ ih =>
      obtain ⟨htail, hrest⟩ := ih holds hsuits.right
      exact ⟨(hnew head hsuits.left).trans (htail.append_at [_]), hrest⟩
  | kept head _ ih =>
      obtain ⟨htail, hrest⟩ := ih holds.right hsuits.right
      exact ⟨((hkept head holds.left hsuits.left).append_right _).trans (htail.append_at [_]), hrest⟩

end Stages

section Steps

variable {render : Cursor → Phrase → Pass ω Rendered}
variable {diff : Engine → Cursor → Phrase → Rendered → Pass ω Rendered}

variable (T) in
/-- Rendering as deep as one likes puts a block at its cursor. -/
def RenderShifts (render : Cursor → Phrase → Pass ω Rendered) : Prop :=
  ∀ ⦃c phrase σ r σ'⦄, render c phrase σ = .ok r σ' → T.Suits r.slots →
    ShiftAll T c.parent (At c.anchor) σ [] σ' [r]

variable (T) in
/-- A diff as deep as one likes keeps a block in its place. -/
def DiffShifts (diff : Engine → Cursor → Phrase → Rendered → Pass ω Rendered) : Prop :=
  ∀ ⦃e c phrase previous σ r σ'⦄, diff e c phrase previous σ = .ok r σ' → T.Suits previous.slots →
    T.Suits r.slots → ShiftAll T c.parent Anywhere σ [previous] σ' [r]

/-- A component that is mounted puts its output at the cursor, and its marker after it. -/
theorem mount_shift (hbare : ¬ T.bare) (hrender : RenderShifts T render) (hrenders : Renders (Watch.blind b) render)
    {factory : Factory} {props : Arg} {s : Sentence}
    {r : Rendered} {w₁ w₂ w₃ w₄ : ω} {f : Host → Host}
    (hcreate : b.create factory ⟨σ.instances.size⟩ props σ.world = .ok () w₁)
    (hwill : b.lifecycle ⟨σ.instances.size⟩ .willMount w₁ = .ok () w₂)
    (hview : b.view ⟨σ.instances.size⟩ w₂ = .ok s w₃)
    (hinner : render { c with component := some ⟨σ.instances.size⟩ } (.new s)
      ⟨σ.host, σ.instances.push ⟨factory, e, c.parent, none, none, []⟩, w₃⟩ = .ok r σ')
    (hputs : c.parent.index < σ'.host.count → Host.Puts c.parent c.anchor σ'.host (f σ'.host))
    (hdid : b.lifecycle ⟨σ.instances.size⟩ .didMount σ'.world = .ok () w₄) :
    Shift T c.parent (At c.anchor) σ [] (((σ'.onHost f).onInstance ⟨σ.instances.size⟩
      fun i => { i with developed := some r, witness := some σ'.host.next }).inWorld w₄)
      [.component ⟨σ.instances.size⟩] := by
  refine ⟨mount_turn _ hrenders hcreate hwill hview hinner hdid, ?_⟩
  intro cs before tops after owned hholds _ hplaced hblock hat
  cases hholds
  cases hplaced
  have hshift := hrender hinner fun h => absurd h hbare
  obtain ⟨-, hturn⟩ := hshift.renewal (by simp)
  replace hshift := hshift.shift (by simp)
  rw [slotsOf_cons, slotsOf_nil, List.append_nil] at hturn hshift
  generalize hid : (⟨σ.instances.size⟩ : InstanceId) = id at hcreate hwill hview hdid ⊢
  have hindex : id.index = σ.instances.size := by rw [← hid]
  obtain ⟨inner, hinner, hexchange⟩ := hturn [] .nil (mounted_blind List.nodup_nil)
  have hnotin : id ∉ inner := fun hchild => by
    rcases hexchange.source id hchild with hold | hlate
    · simp at hold
    · rw [Array.size_push] at hlate
      omega
  -- until the output is rendered the host is left alone
  have hbefore : Undisturbed T σ ((((σ.inWorld w₁).inWorld w₂).inWorld w₃)) :=
    ((Undisturbed.inWorld (.create hcreate)).trans (.inWorld (.lifecycle hwill))).trans (.inWorld (.view hview))
  replace hbefore := hbefore.inTable (σ.instances.push ⟨factory, e, c.parent, none, none, []⟩)
  obtain ⟨tops, owned, hplaced, hblock₁, hmoved₁⟩ :=
    hshift.moved .nil List.nodup_nil .nil (hblock.undisturbed hbefore) hat
  have hput := hputs (hblock₁.free c.parent List.mem_cons_self).lt
  have hblock₂ := hblock₁.put hat hput
  have hmoved₂ : Moved T σ c.parent [] [] (σ'.onHost f) (tops ++ [σ'.host.next]) owned :=
    ((Moved.of_undisturbed hbefore).trans hmoved₁).trans (.put hput)
  have htold : Undisturbed T (σ'.onHost f) ((σ'.onHost f).inWorld w₄) := .inWorld (.lifecycle hdid)
  have hafter : Undisturbed T (σ'.onHost f) (((σ'.onHost f).onInstance id fun i =>
      { i with developed := some r, witness := some σ'.host.next }).inWorld w₄) := htold.inTable _
  refine ⟨tops ++ [σ'.host.next], owned, ?_, hblock₂.undisturbed hafter, hmoved₂.trans (.of_undisturbed hafter)⟩
  obtain ⟨i, hpresent, hcore⟩ := (hexchange.agree id (by rw [Array.size_push]; omega) (by simp)).some
    (show _ = some _ by rw [hindex, Array.getElem?_push_size])
  have hhere : (σ'.instances.modify id.index fun i =>
      { i with developed := some r, witness := some σ'.host.next })[id.index]? =
        some { i with developed := some r, witness := some σ'.host.next } := by
    rw [Array.getElem?_modify, if_pos rfl, hpresent, Option.map_some]
  have hkept : ∀ n ∈ owned, (f σ'.host).children n = σ'.host.children n := fun n hn => by
    have hne : n ≠ c.parent := fun heq => (List.nodup_cons.mp hblock₁.distinct).1 (heq ▸ hn)
    rw [hput.children, if_neg hne]
  have hplaced' : Placed (f σ'.host) (σ'.instances.modify id.index fun i =>
      { i with developed := some r, witness := some σ'.host.next }) c.parent r.slots tops owned :=
    hplaced.congr hinner (fun child hchild => agree_modify _ _ fun heq => hnotin (heq ▸ hchild))
      (by rw [hput.count]; exact Nat.le_succ _) hkept
  have hparent : i.parent = c.parent := Placed.parent_of_core hcore
  have hwhole := Placed.component hhere hparent rfl rfl hplaced' .nil
  rwa [List.append_nil] at hwhole

/-- A component that is rendered again keeps its block. -/
theorem update_shift (hbare : ¬ T.bare) (hdiff : DiffShifts T diff) (hdiffs : Diffs (Watch.blind b) diff)
    {id : InstanceId}
    (hupdate : Engine.UpdateStep b diff id σ σ') : Shift T p aim σ [.component id] σ' [.component id] := by
  have hturn : Turn (blind b) σ [.component id] σ' [.component id] := fun cs hholds hmounted =>
    update_exchange (Watch.blind b) hdiffs hupdate hholds hmounted.nodup (fun _ _ _ => trivial)
      (fun _ _ => trivial) trivial .view
  refine ⟨hturn, ?_⟩
  intro cs before tops after owned hholds hnodup hplaced hblock _
  obtain ⟨i, previous, inner, rfl, hpresent, hdeveloped, hpaired, hlater, hinner⟩ := hholds.of_component
  obtain ⟨innerTops, witness, rfl, hparent, hwitness, hplacedInner⟩ :=
    hplaced.of_component hpresent hdeveloped
  cases hupdate with
  | absent habsent => simp [habsent] at hpresent
  | @viewed i₁ previous₁ next s w σ' hpresent₁ hdeveloped₁ hview hrun =>
  rw [hpresent] at hpresent₁
  cases hpresent₁
  rw [hdeveloped] at hdeveloped₁
  cases hdeveloped₁
  have hnotin : id ∉ inner := fun hchild => absurd (hlater id hchild) (Nat.lt_irrefl _)
  have hlt := (Array.getElem?_eq_some_iff.mp hpresent).1
  have hinnerNodup : inner.Nodup := hnodup.sublist (List.sublist_append_left _ _)
  have hshift := hdiff hrun (fun h => absurd h hbare) fun h => absurd h hbare
  obtain ⟨-, hturn'⟩ := hshift.renewal (by simpa using hpaired)
  replace hshift := hshift.shift (by simpa using hpaired)
  simp only [slotsOf_cons, slotsOf_nil, List.append_nil, hparent] at hturn' hshift
  have hbefore : Undisturbed T σ ((σ.onInstance id fun i => { i with developed := none }).inWorld w) :=
    (Undisturbed.inWorld (.view hview)).inTable _
  have hagree : ∀ child ∈ inner, Agree σ.instances (σ.instances.modify id.index fun i =>
      { i with developed := none }) child := fun child hchild =>
    agree_modify _ _ fun heq => hnotin (heq ▸ hchild)
  have hinner₁ := hinner.congr hagree
  obtain ⟨inner', hinner', hexchange⟩ := hturn' inner hinner₁ (mounted_blind hinnerNodup)
  have hplaced₁ : Placed σ.host (σ.instances.modify id.index fun i => { i with developed := none }) p
      previous.slots innerTops owned :=
    hplacedInner.congr hinner hagree (Nat.le_refl _) fun _ _ => rfl
  obtain ⟨tops', owned', hplaced', hblock', hmoved'⟩ :=
    hshift.moved hinner₁ hinnerNodup hplaced₁ (hblock.unended.undisturbed hbefore) trivial
  have hafter : Undisturbed T σ' (σ'.onInstance id fun i => { i with developed := some next }) :=
    (Undisturbed.refl σ').inTable _
  have hmoved : Moved T σ p innerTops owned σ' tops' owned' := (Moved.of_undisturbed hbefore).trans hmoved'
  refine ⟨tops' ++ [witness], owned', ?_, (hblock.ended hblock' hmoved).undisturbed hafter,
    (hmoved.ended _).trans (.of_undisturbed hafter)⟩
  have hnotin' : id ∉ inner' := fun hchild => by
    rcases hexchange.source id hchild with hold | hlate
    · exact hnotin hold
    · rw [Stage.inWorld_instances, Stage.onInstance_instances, Array.size_modify] at hlate
      omega
  obtain ⟨i', hpresent', hcore⟩ := (hexchange.agree id (by simpa using hlt) hnotin).some
    (show (σ.instances.modify id.index _)[id.index]? = some _ by
      rw [Array.getElem?_modify, if_pos rfl, hpresent, Option.map_some])
  have hhere : (σ'.instances.modify id.index fun i => { i with developed := some next })[id.index]? =
      some { i' with developed := some next } := by
    rw [Array.getElem?_modify, if_pos rfl, hpresent', Option.map_some]
  have hparent' : i'.parent = p := (Placed.parent_of_core hcore).trans hparent
  have hwitness' : i'.witness = some witness := (Placed.witness_of_core hcore).trans hwitness
  have hplaced'' : Placed σ'.host (σ'.instances.modify id.index fun i => { i with developed := some next }) p
      next.slots tops' owned' :=
    hplaced'.congr hinner' (fun child hchild => agree_modify _ _ fun heq => hnotin' (heq ▸ hchild))
      (Nat.le_refl _) fun _ _ => rfl
  have hwhole := Placed.component hhere hparent' hwitness' rfl hplaced'' .nil
  rwa [List.append_nil] at hwhole

/-- Rendering a lexem puts its slot at the cursor. -/
theorem RenderStep.shift (hrender : RenderShifts T render) (hrenders : Renders (Watch.blind b) render)
    {slot : Slot} (hsuits : T.Suits [slot]) (h : Engine.RenderStep b render e c lexem σ slot σ') :
    Shift T c.parent (At c.anchor) σ [] σ' [slot] := by
  have hparts := hsuits.parts
  cases h with
  | skipped => exact .bornBare trivial rfl .refl
  | compound _ _ hdevelop hinner =>
      have hinner := hrender hinner hparts.left
      exact .bornBare trivial rfl ((ShiftAll.evaluation Engine.develop_inWorld hdevelop).trans hinner)
  | «attribute» => exact .bornBare trivial rfl (.onHost (Host.Inscribes.writeAll _ _ _).tree)
  | text => exact .bornEnded trivial rfl (Host.putText_puts _) .refl
  | element _ _ _ _ hinner =>
      exact .bornElement (Host.putElement_puts _) (chain_shift (fun h => hrender h) hparts hinner)
  | listener => exact .bornBare trivial rfl (.onHost (.addListener _ _ _ _))
  | branch _ _ hchoice hchosen hinner =>
      refine .bornEnded trivial rfl (Host.putMarker_puts _) ?_
      exact (ShiftAll.evaluation (Engine.choice_inWorld hchoice) hchosen).trans
        (chain_shift (fun h => hrender h) hparts hinner)
  | each _ _ hphrases hinner =>
      refine .bornEnded trivial rfl (Host.putMarker_puts _) ?_
      exact (ShiftAll.evaluation Engine.eachPhrases_inWorld hphrases).trans
        (chain_shift (fun h => hrender h) hparts hinner)
  | raw =>
      have hsame : (σ.onHost fun h => (h.insertRaw c.parent (lexem.arg 0).toText c.anchor).2.putMarker c
        (e.markerText "html")).instances = σ.instances := rfl
      refine .born trivial hsame .refl fun hblock hat => ?_
      have hparent := (hblock.free c.parent List.mem_cons_self).lt
      have hraw : Host.Puts c.parent c.anchor σ.host _ := Host.insertRaw_puts (lexem.arg 0).toText hparent
      have hmarker := Host.putMarker_puts (e.markerText "html") (c := c)
        (h := (σ.host.insertRaw c.parent (lexem.arg 0).toText c.anchor).2) (by rw [hraw.count]; omega)
      rw [Slot.ends, ← List.append_assoc]
      exact ⟨(hblock.put hat hraw).put hat hmarker, (Moved.put hraw).trans (.put hmarker)⟩
  | hook _ _ _ hcall =>
      exact .bornBare trivial rfl (.keep (.hooked hsuits.hook (.render hcall)) rfl fun _ => rfl)
  | callback _ _ _ hcall => exact .bornBare trivial rfl (.keep (.inWorld (.callback hcall)) rfl fun _ => rfl)
  | name _ _ hname => exact (nameNode_shift hname).trans (.bornBare trivial rfl .refl)
  | component _ _ _ hcreate hwill hview hinner hdid =>
      exact mount_shift hsuits.component hrender hrenders hcreate hwill hview hinner (Host.putMarker_puts _) hdid

/-- Markup is replaced before its marker. -/
theorem markup_shift {witness : NodeId} {nodes : List NodeId} {markup : String} :
    Shift T p aim σ [.raw witness nodes]
      (σ.onHost fun h => ((nodes.foldl (fun h n => h.removeChild p n) h).insertRaw p markup (some witness)).2)
      [.raw witness ((nodes.foldl (fun h n => h.removeChild p n) σ.host).insertRaw p markup
        (some witness)).1] where
  turn := .part (by simp) (by simp) (.onHost (Watch.blind b))
  moved {cs} before tops after owned hholds _ hplaced hblock _ := by
    cases hholds with
    | part _ _ hinner houter =>
    cases hinner
    cases houter
    cases hplaced with
    | plain _ hplacedInner hplacedOuter =>
    cases hplacedInner
    cases hplacedOuter
    simp only [Slot.ends, List.append_nil, List.nil_append] at hblock ⊢
    have hwitness : witness ∉ before := (hblock.apart witness (by simp)).1
    have htakes : Host.Takes p nodes σ.host (nodes.foldl (fun h n => h.removeChild p n) σ.host) := .all nodes _
    have hblock₁ := hblock.unended.take htakes
    have hputs : Host.Puts p (some witness) _ _ :=
      Host.insertRaw_puts markup (hblock₁.free p List.mem_cons_self).lt
    have hat : At (some witness) before ([witness] ++ after) := ⟨hwitness, _, rfl⟩
    have hblock₂ := hblock₁.put hat hputs
    have hmoved : Moved T σ p nodes [] _ ([] ++ [_]) [] := (Moved.take htakes).trans (.put hputs)
    have hplain : ∀ ns : List NodeId, (Slot.raw witness ns).Plain := fun _ => trivial
    exact ⟨_, [], .plain (hplain _) .nil .nil, hblock.ended hblock₂ hmoved, hmoved.ended [witness]⟩

/-- Diffing a lexem keeps the block of its slot. -/
theorem DiffStep.shift (hrender : RenderShifts T render) (hrenders : Renders (Watch.blind b) render)
    (hdiff : DiffShifts T diff) (hdiffs : Diffs (Watch.blind b) diff) {slot slot' : Slot}
    (hsuits : T.Suits [slot]) (hsuits' : T.Suits [slot'])
    (h : Engine.DiffStep b render diff e c lexem old σ slot slot' σ') :
    Shift T c.parent Anywhere σ [slot] σ' [slot'] := by
  have hanchor : ∀ {witness : NodeId} {before after : List NodeId}, Anywhere before after →
      (∀ n ∈ [witness], n ∉ before) → At (some witness) before ([witness] ++ after) := fun _ hnot =>
    ⟨hnot _ (List.mem_singleton.mpr rfl), _, rfl⟩
  have hparts := hsuits.parts
  have hparts' := hsuits'.parts
  cases h with
  | kept => exact .refl
  | redeveloped _ _ _ hdevelop hrun =>
      have hinner := hdiff hrun hparts.left hparts'.left
      exact .part trivial trivial rfl (fun _ _ h _ => h)
        ((ShiftAll.evaluation Engine.develop_inWorld hdevelop).trans hinner)
  | rewritten _ _ _ hrewrite => exact .onHost (rewrite_inscribes hrewrite _).tree
  | text => exact .onHost (.entry _ _ _ _)
  | rebound => exact .onHost (.rebind _ _ _)
  | moved =>
      exact .part trivial trivial rfl (fun _ _ h _ => h)
        (.onHost ((Host.SameTree.removeListener _ _ _ _).trans (.addListener _ _ _ _)))
  | raw => exact markup_shift
  | @retagged node kids _ _ _ σ₁ _ _ _ _ _ hstep hremove =>
      have hput : Shift T c.parent (At (some node)) σ [] σ₁ [slot'] :=
        RenderStep.shift hrender hrenders hsuits' hstep
      have hboth : Shift T c.parent Anywhere σ ([] ++ [] ++ [.element node kids]) σ₁
          ([] ++ [slot'] ++ [.element node kids]) := by
        refine hput.frame_aim [] [.element node kids] fun _ hright _ hapart _ => ?_
        cases hright with
        | plain hslot => exact hslot.elim
        | element => exact ⟨hapart node List.mem_cons_self, _, rfl⟩
      exact hboth.trans ((teardownSlot_shift hsuits hremove).append_left [slot'])
  | tag _ _ _ _ hkids hrest =>
      have hmatching := matching_shift (fun ⟨_, _, hrun⟩ hsuits => hrender hrun hsuits)
        (fun hchild hsuits hsuits' => ?_) hparts hparts' hkids
      · exact .element (hmatching.1.trans (leftovers_shift hmatching.2 hrest))
      · cases hchild with
        | same => exact .refl
        | diffed _ hrun => exact hdiff hrun hsuits hsuits'
  | branch _ _ hchoice _ hchosen hrun =>
      have hinner := hdiff hrun hparts.left hparts'.left
      exact .part trivial trivial rfl (fun _ _ h _ => h)
        ((ShiftAll.evaluation (Engine.choice_inWorld hchoice) hchosen).trans hinner)
  | flipped _ _ hchoice _ hchosen hremove hinner =>
      refine .part trivial trivial rfl (fun _ _ h hnot => hanchor h hnot) ?_
      exact (ShiftAll.evaluation (Engine.choice_inWorld hchoice) hchosen).trans
        ((teardowns_shift hparts hremove).aimed.trans (chain_shift (fun h => hrender h) hparts' hinner))
  | each _ _ hphrases hitems hrest =>
      have hmatching := matching_shift (fun h => hrender h) (fun h => hdiff h) hparts hparts' hitems
      refine .part trivial trivial rfl (fun _ _ h hnot => hanchor h hnot) ?_
      exact (ShiftAll.evaluation Engine.eachPhrases_inWorld hphrases).trans
        (hmatching.1.trans (leftovers_shift hmatching.2 hrest))
  | hook _ _ _ _ hcall => exact .hooked hsuits.hook (.diff hcall)
  | rehooked _ _ _ _ _ hremove hcall =>
      have hfirst : ∀ slots, Shift T c.parent Anywhere σ slots _ slots := fun _ =>
        .hooked hsuits.hook (.remove hremove)
      exact (hfirst _).trans (.hooked hsuits.hook (.render hcall))
  | callback _ _ _ _ hcall => exact .inWorld (.callback hcall)
  | name _ _ hname => exact nameNode_shift hname
  | component _ _ _ _ _ htold hupdate =>
      exact (Shift.inWorld (.lifecycle htold)).trans (update_shift hsuits.component hdiff hdiffs hupdate)

/-- The slots of a sentence that is rendered come one after the other. -/
theorem renderChain_shift (hrender : RenderShifts T render) (hrenders : Renders (Watch.blind b) render)
    {lexems : List Lexem} {slots : List Slot} (hsuits : T.Suits slots)
    (h : Chain (Engine.renderLexem b render e c) lexems σ slots σ') :
    Shift T c.parent (At c.anchor) σ [] σ' slots := by
  induction h with
  | nil => exact .refl
  | @cons _ _ slot slots _ _ _ head _ ih =>
      have hboth : T.Suits ([slot] ++ slots) := hsuits
      exact (RenderStep.shift hrender hrenders hboth.left (Engine.renderLexem_step head)).trans
        ((ih hboth.right).append_at [_])

/-- The slots of a sentence that is diffed keep their places. -/
theorem DiffSteps.shift (hrender : RenderShifts T render) (hrenders : Renders (Watch.blind b) render)
    (hdiff : DiffShifts T diff) (hdiffs : Diffs (Watch.blind b) diff) {lexems olds : List Lexem}
    {slots slots' : List Slot} (hsuits : T.Suits slots) (hsuits' : T.Suits slots')
    (h : Engine.DiffSteps b render diff e c lexems olds slots σ slots' σ') :
    Shift T c.parent Anywhere σ slots σ' slots' := by
  induction h with
  | nil => exact .refl
  | @cons _ _ _ _ slot slot' slots slots' _ _ _ _ head _ ih =>
      have hboth : T.Suits ([slot] ++ slots) := hsuits
      have hboth' : T.Suits ([slot'] ++ slots') := hsuits'
      exact ((DiffStep.shift hrender hrenders hdiff hdiffs hboth.left hboth'.left head).append_right _).trans
        ((ih hboth.right hboth'.right).append_left [_])

end Steps

theorem renderWithin_shift {depth : Nat} : RenderShifts T (Engine.renderWithin b depth e) := by
  induction depth with
  | zero =>
      intro c phrase σ r σ' h
      cases h
  | succ depth ih =>
      intro c phrase σ r σ' h hsuits
      refine ⟨renderWithin_renewal _ h, fun _ => ?_⟩
      obtain ⟨slots, rfl, hchain⟩ := Engine.renderPhrase_ok h
      simpa using renderChain_shift ih (renderWithin_renewal _) hsuits hchain

theorem diffWithin_shift {depth : Nat} : DiffShifts T (Engine.diffWithin b depth) := by
  induction depth with
  | zero =>
      intro e c phrase previous σ r σ' h
      cases h
  | succ depth ih =>
      intro e c phrase previous σ r σ' h hsuits hsuits'
      refine ⟨diffWithin_renewal _ h, fun hpaired => ?_⟩
      rcases Engine.diffPhrase_ok (hpaired previous List.mem_cons_self) h with
        ⟨-, rfl, rfl⟩ | ⟨-, slots, rfl, hsteps⟩
      · exact .refl
      · simpa using DiffSteps.shift renderWithin_shift (renderWithin_renewal _) ih (diffWithin_renewal _)
          hsuits hsuits' hsteps

end Parlance
