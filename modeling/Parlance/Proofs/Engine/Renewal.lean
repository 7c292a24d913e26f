import Parlance.Proofs.Engine.DiffStep
import Parlance.Proofs.Engine.Removal

/-! Every pass of the engine is a turn: rendering adds what its output holds, a diff exchanges the components
that leave for those that come, and nothing happens to a component that stands elsewhere. The steps of one
lexem are gone through case by case, and whole passes follow by induction on how deep they go. -/

namespace Parlance

open Pass

variable {ω : Type} {b : Behaviour ω} (k : Watch b)
variable {σ σ₁ σ' : Stage ω} {e : Engine} {c : Cursor} {lexem old : Lexem}

theorem Evaluation.keeps {w w' : ω} (h : Evaluation b w w') : k.Keeps w w' := by
  induction h with
  | refl => exact .refl _ _
  | run hrun => exact k.run _ _ _ _ hrun
  | render hrender _ ih => exact (k.render _ _ _ hrender).trans ih

section Stages

/-- What stays the same but for the world is kept as far as the world keeps it. -/
theorem Renewal.inWorld {w : ω} {rs : List Rendered} (hkeeps : k.Keeps σ.world w) :
    Renewal k.toChronicle σ rs (σ.inWorld w) rs := .keep rfl (fun _ => rfl) hkeeps

theorem Renewal.onHost {f : Host → Host} {rs : List Rendered} :
    Renewal k.toChronicle σ rs (σ.onHost f) rs := .keep rfl (fun _ => rfl) (.refl _ _)

theorem Turn.inWorld {w : ω} {slots : List Slot} (hkeeps : k.Keeps σ.world w) :
    Turn k.toChronicle σ slots (σ.inWorld w) slots := .keep rfl (fun _ => rfl) hkeeps

theorem Turn.onHost {f : Host → Host} {slots : List Slot} :
    Turn k.toChronicle σ slots (σ.onHost f) slots := .keep rfl (fun _ => rfl) (.refl _ _)

/-- An evaluation in the world, as a renewal of nothing. -/
theorem Renewal.evaluation {α : Type} {m : Pass ω α} {a : α} {w : ω} {rs : List Rendered}
    (hinWorld : ∀ {σ'}, m σ = .ok a σ' → ∃ w, σ' = σ.inWorld w ∧ Evaluation b σ.world w)
    (h : m σ = .ok a (σ.inWorld w)) : Renewal k.toChronicle σ rs (σ.inWorld w) rs := by
  obtain ⟨w', heq, hevaluation⟩ := hinWorld h
  obtain rfl : w = w' := congrArg Stage.world heq
  exact .inWorld k (hevaluation.keeps k)

end Stages

/-- Naming a node changes only the names. -/
theorem nameNode_ok (h : Engine.nameNode c lexem σ = .ok () σ') :
    ∃ t, σ' = ⟨σ.host, t, σ.world⟩ ∧ t.size = σ.instances.size ∧ ∀ id, Agree σ.instances t id := by
  unfold Engine.nameNode at h
  cases hcomponent : c.component with
  | none =>
      rw [hcomponent] at h
      obtain ⟨-, rfl⟩ := pure_eq_ok.mp h
      exact ⟨_, rfl, rfl, fun _ => rfl⟩
  | some id =>
      simp only [hcomponent, bind_eq_ok, ofExcept_eq_ok, editInstance_eq_ok] at h
      obtain ⟨name, _, ⟨-, rfl⟩, rfl⟩ := h
      refine ⟨_, rfl, Array.size_modify, fun other => ?_⟩
      rw [Agree, Array.getElem?_modify]
      split
      · rw [Option.map_map]
        rfl
      · rfl

theorem nameNode_turn {slots : List Slot} (h : Engine.nameNode c lexem σ = .ok () σ') :
    Turn k.toChronicle σ slots σ' slots := by
  obtain ⟨t, rfl, hsize, hagree⟩ := nameNode_ok h
  exact .keep hsize hagree (.refl _ _)

theorem chain_renewal {α : Type} {f : α → Pass ω Rendered} {as : List α} {rs : List Rendered}
    (hstep : ∀ {a σ r σ'}, f a σ = .ok r σ' → Renewal k.toChronicle σ [] σ' [r])
    (h : Chain f as σ rs σ') : Renewal k.toChronicle σ [] σ' rs := by
  induction h with
  | nil => exact .refl
  | cons head _ ih => exact (hstep head).trans (ih.append_left [_])

theorem matching_renewal {α : Type} {new : α → Stage ω → Rendered → Stage ω → Prop}
    {kept : α → Rendered → Stage ω → Rendered → Stage ω → Prop} {as : List α} {olds rs rest : List Rendered}
    (hnew : ∀ {a σ r σ'}, new a σ r σ' → Renewal k.toChronicle σ [] σ' [r])
    (hkept : ∀ {a old σ r σ'}, kept a old σ r σ' → Renewal k.toChronicle σ [old] σ' [r])
    (h : Engine.Matching new kept as olds σ rs rest σ') :
    Renewal k.toChronicle σ olds σ' (rs ++ rest) := by
  induction h with
  | rest => exact .refl
  | new head _ ih => exact (hnew head).trans (ih.append_left [_])
  | kept head _ ih => exact ((hkept head).append_right _).trans (ih.append_left [_])

section Steps

variable {render : Cursor → Phrase → Pass ω Rendered}
variable {diff : Engine → Cursor → Phrase → Rendered → Pass ω Rendered}

/-- Rendering as deep as one likes adds what the output holds. -/
def Renders (render : Cursor → Phrase → Pass ω Rendered) : Prop :=
  ∀ ⦃c phrase σ r σ'⦄, render c phrase σ = .ok r σ' → Renewal k.toChronicle σ [] σ' [r]

/-- A diff as deep as one likes exchanges what the output holds. -/
def Diffs (diff : Engine → Cursor → Phrase → Rendered → Pass ω Rendered) : Prop :=
  ∀ ⦃e c phrase previous σ r σ'⦄, diff e c phrase previous σ = .ok r σ' →
    Renewal k.toChronicle σ [previous] σ' [r]

/-- A component has been mounted: made, told, asked for its output, and told again. -/
theorem mount_turn (hrender : Renders k render) {factory : Factory} {props : Arg} {s : Sentence}
    {r : Rendered} {w₁ w₂ w₃ w₄ : ω} {c' : Cursor} {f : Host → Host} {witness : NodeId}
    (hcreate : b.create factory ⟨σ.instances.size⟩ props σ.world = .ok () w₁)
    (hwill : b.lifecycle ⟨σ.instances.size⟩ .willMount w₁ = .ok () w₂)
    (hview : b.view ⟨σ.instances.size⟩ w₂ = .ok s w₃)
    (hinner : render c' (.new s)
      ⟨σ.host, σ.instances.push ⟨factory, e, c.parent, none, none, []⟩, w₃⟩ = .ok r σ')
    (hdid : b.lifecycle ⟨σ.instances.size⟩ .didMount σ'.world = .ok () w₄) :
    Turn k.toChronicle σ [] (((σ'.onHost f).onInstance ⟨σ.instances.size⟩
      fun i => { i with developed := some r, witness := some witness }).inWorld w₄)
      [.component ⟨σ.instances.size⟩] := by
  intro cs hholds hmounted
  cases hholds
  obtain ⟨hpaired, hturn⟩ := hrender hinner (by simp)
  replace hpaired := hpaired r List.mem_cons_self
  rw [slotsOf_cons, slotsOf_nil, List.append_nil] at hturn
  have hmade := k.create _ _ _ hcreate
  have htold := k.lifecycle hwill
  have hasked := k.view hview
  have hclosed := k.lifecycle hdid
  generalize hid : (⟨σ.instances.size⟩ : InstanceId) = id at htold hasked hclosed ⊢
  have hindex : id.index = σ.instances.size := by rw [← hid]
  have hne : ∀ {other : InstanceId}, other.index ≠ σ.instances.size → other ≠ id := by
    rintro other hother rfl
    exact hother hindex
  -- the component has been shown when its output is rendered, and no other one has heard anything
  have hshown : k.phase w₃ id .shown :=
    hasked.own (htold.own (hmade.1 _ _ (hmounted.unborn id (Nat.le_of_eq hindex.symm))) .willMount) .firstView
  have hothers : ∀ {other p}, other ≠ id → k.phase σ.world other p → k.phase w₃ other p :=
    fun hother hp => hasked.others hother (htold.others hother (hmade.1 _ _ hp))
  obtain ⟨inner, hinner, hexchange⟩ := hturn [] .nil
    ⟨List.nodup_nil, by simp, fun other hother => by
      rw [Array.size_push] at hother
      exact hothers (hne (by omega)) (hmounted.unborn other (by omega))⟩
  have hgrows := hexchange.grows
  rw [Array.size_push] at hgrows
  have hlater : ∀ child ∈ inner, id.index < child.index := by
    intro child hchild
    rcases hexchange.source child hchild with hchild | hchild
    · simp at hchild
    · rw [Array.size_push] at hchild
      omega
  have hnotin : id ∉ inner := fun hchild => absurd (hlater id hchild) (Nat.lt_irrefl _)
  have hlive : k.phase w₄ id .live :=
    hclosed.own (hexchange.kept id (by rw [Array.size_push]; omega) (by simp) _ hshown) .didMount
  have hagree : ∀ other ≠ id, Agree σ'.instances (σ'.instances.modify id.index fun i =>
      { i with developed := some r, witness := some witness }) other := fun other => agree_modify _ _
  obtain ⟨i, hpresent, -⟩ := (hexchange.agree id (by rw [Array.size_push]; omega) (by simp)).some
    (show _ = some _ by rw [hindex, Array.getElem?_push_size])
  have hhere : (σ'.instances.modify id.index fun i =>
      { i with developed := some r, witness := some witness })[id.index]? =
        some { i with developed := some r, witness := some witness } := by
    rw [Array.getElem?_modify, if_pos rfl, hpresent, Option.map_some]
  refine ⟨inner ++ [id], ?_, ⟨⟨?_, ?_, ?_⟩, ?_, ?_, ?_, ?_, ?_, ?_⟩⟩
  · exact .component hhere rfl hpaired hlater
      (hinner.congr fun child hchild => hagree child fun heq => hnotin (heq ▸ hchild)) .nil
  · simp only [List.nodup_append, List.nodup_cons, List.mem_singleton]
    exact ⟨hexchange.mounted.nodup, by simp, by rintro child hchild _ rfl rfl; exact hnotin hchild⟩
  · intro child hchild
    rcases List.mem_append.mp hchild with hchild | hchild
    · exact hclosed.others (fun heq => hnotin (heq ▸ hchild)) (hexchange.mounted.live child hchild)
    · rw [List.mem_singleton.mp hchild]
      exact hlive
  · intro other hother
    simp only [Stage.inWorld_instances, Stage.onInstance_instances, Stage.onHost_instances,
      Array.size_modify] at hother
    exact hclosed.others (hne (by omega)) (hexchange.mounted.unborn other hother)
  · simp only [Stage.inWorld_instances, Stage.onInstance_instances, Stage.onHost_instances,
      Array.size_modify]
    omega
  · intro child hchild
    rcases List.mem_append.mp hchild with hchild | hchild
    · exact .inr (by have := hlater child hchild; omega)
    · rw [List.mem_singleton.mp hchild]
      exact .inr (Nat.le_of_eq hindex.symm)
  · intro other hother hlt hnot
    simp only [List.mem_append, List.mem_singleton, not_or] at hnot
    simp only [List.not_mem_nil, false_or] at hother
    simp only [Stage.inWorld_instances, Stage.onInstance_instances, Stage.onHost_instances,
      Array.size_modify] at hlt
    have hindexne : other.index ≠ σ.instances.size := fun heq => hnot.2 (by
      rw [← hid]
      cases other
      exact congrArg _ heq)
    obtain ⟨hgone, hvacant⟩ := hexchange.gone other (.inr (by rw [Array.size_push]; omega)) hlt hnot.1
    exact ⟨hclosed.others hnot.2 hgone, (hagree other hnot.2).vacant hvacant⟩
  · intro other hlt _
    have hpush : Agree σ.instances (σ.instances.push ⟨factory, e, c.parent, none, none, []⟩) other := by
      rw [Agree, Array.getElem?_push_lt hlt, Array.getElem?_eq_getElem hlt]
    exact (hpush.trans (hexchange.agree other (by rw [Array.size_push]; omega) (by simp))).trans
      (hagree other (hne (by omega)))
  · intro other hlt _ p hp
    exact hclosed.others (hne (by omega))
      (hexchange.kept other (by rw [Array.size_push]; omega) (by simp) p (hothers (hne (by omega)) hp))
  · intro hcalm
    refine hclosed.calm (by simp [Lifecycle.cue]) (by simp [Lifecycle.cue]) (hexchange.calm ?_)
    exact hasked.calm (by simp) (by simp) (htold.calm (by simp [Lifecycle.cue]) (by simp [Lifecycle.cue])
      (hmade.2 hcalm))

/-- A component is rendered again when it is its turn to show itself. -/
theorem update_exchange (hdiff : Diffs k diff) {id : InstanceId} {cs : List InstanceId} {p : Phase}
    (hupdate : Engine.UpdateStep b diff id σ σ') (hholds : Holds σ.instances [.component id] cs)
    (hnodup : cs.Nodup) (hlive : ∀ other ∈ cs, other ≠ id → k.phase σ.world other .live)
    (hunborn : ∀ other : InstanceId, σ.instances.size ≤ other.index → k.phase σ.world other .unborn)
    (hid : k.phase σ.world id p) (hmoves : p.Moves .view .live) :
    ∃ cs', Holds σ'.instances [.component id] cs' ∧ Exchange k.toChronicle σ cs σ' cs' := by
  cases hholds with
  | part hslot => exact absurd rfl (hslot id)
  | @component _ i r _ inner _ hpresent hdeveloped hpaired hlater hinner houter =>
  cases houter
  cases hupdate with
  | absent habsent => simp [habsent] at hpresent
  | @viewed i' previous next s w σ' hpresent' hdeveloped' hview hrun =>
  rw [hpresent] at hpresent'
  cases hpresent'
  rw [hdeveloped] at hdeveloped'
  cases hdeveloped'
  have hlt := (Array.getElem?_eq_some_iff.mp hpresent).1
  have hasked := k.view hview
  have hnotin : id ∉ inner := fun hchild => absurd (hlater id hchild) (Nat.lt_irrefl _)
  have hinnerNodup : inner.Nodup := hnodup.sublist (List.sublist_append_left _ _)
  obtain ⟨hpaired', hturn⟩ := hdiff hrun (by simpa using hpaired)
  replace hpaired' := hpaired' next List.mem_cons_self
  simp only [slotsOf_cons, slotsOf_nil, List.append_nil] at hturn
  have hmounted : Mounted k.toChronicle
      ((σ.onInstance id fun i => { i with developed := none }).inWorld w) inner := by
    refine ⟨hinnerNodup, fun child hchild => ?_, fun other hother => ?_⟩
    · have hne : child ≠ id := fun heq => hnotin (heq ▸ hchild)
      exact hasked.others hne (hlive child (List.mem_append_left _ hchild) hne)
    · rw [Stage.inWorld_instances, Stage.onInstance_instances, Array.size_modify] at hother
      have hne : other ≠ id := by
        rintro rfl
        omega
      exact hasked.others hne (hunborn other hother)
  obtain ⟨inner', hinner', hexchange⟩ := hturn inner
    (hinner.congr fun child hchild => agree_modify _ _ fun heq => hnotin (heq ▸ hchild)) hmounted
  have hgrows := hexchange.grows
  simp only [Stage.inWorld_instances, Stage.onInstance_instances, Array.size_modify] at hgrows
  have hsource : ∀ child ∈ inner', child ∈ inner ∨ σ.instances.size ≤ child.index := by
    intro child hchild
    have hsource := hexchange.source child hchild
    rwa [Stage.inWorld_instances, Stage.onInstance_instances, Array.size_modify] at hsource
  have hlater' : ∀ child ∈ inner', id.index < child.index := by
    intro child hchild
    rcases hsource child hchild with hchild | hchild
    · exact hlater child hchild
    · omega
  have hnotin' : id ∉ inner' := fun hchild => absurd (hlater' id hchild) (Nat.lt_irrefl _)
  have hagree : ∀ other ≠ id, Agree σ'.instances (σ'.instances.modify id.index fun i =>
      { i with developed := some next }) other := fun other => agree_modify _ _
  have hkept : ∀ other, other.index < σ.instances.size → other ∉ inner →
      ∀ p, k.phase w other p → k.phase σ'.world other p := fun other hlt =>
    hexchange.kept other (by simpa using hlt)
  obtain ⟨i', hpresent', -⟩ := (hexchange.agree id (by simpa using hlt) hnotin).some
    (show (σ.instances.modify id.index _)[id.index]? = some _ by
      rw [Array.getElem?_modify, if_pos rfl, hpresent, Option.map_some])
  have hhere : (σ'.instances.modify id.index fun i => { i with developed := some next })[id.index]? =
      some { i' with developed := some next } := by
    rw [Array.getElem?_modify, if_pos rfl, hpresent', Option.map_some]
  refine ⟨inner' ++ [id], .component hhere rfl hpaired' hlater'
    (hinner'.congr fun child hchild => hagree child fun heq => hnotin' (heq ▸ hchild)) .nil,
    ⟨⟨?_, ?_, ?_⟩, ?_, ?_, ?_, ?_, ?_, ?_⟩⟩
  · simp only [List.nodup_append, List.nodup_cons, List.mem_singleton]
    exact ⟨hexchange.mounted.nodup, by simp, by rintro child hchild _ rfl rfl; exact hnotin' hchild⟩
  · intro child hchild
    rcases List.mem_append.mp hchild with hchild | hchild
    · exact hexchange.mounted.live child hchild
    · rw [List.mem_singleton.mp hchild]
      exact hkept id hlt hnotin _ (hasked.own hid hmoves)
  · intro other hother
    rw [Stage.onInstance_instances, Array.size_modify] at hother
    exact hexchange.mounted.unborn other hother
  · rw [Stage.onInstance_instances, Array.size_modify]
    exact hgrows
  · intro child hchild
    rcases List.mem_append.mp hchild with hchild | hchild
    · exact (hsource child hchild).imp_left fun hold => List.mem_append_left _ hold
    · exact .inl (List.mem_append_right _ hchild)
  · intro other hother hlt' hnot
    simp only [List.mem_append, List.mem_singleton, not_or] at hnot hother
    rw [Stage.onInstance_instances, Array.size_modify] at hlt'
    refine (hexchange.gone other ?_ hlt' hnot.1).imp_right (hagree other hnot.2).vacant
    rw [Stage.inWorld_instances, Stage.onInstance_instances, Array.size_modify]
    rcases hother with (hother | hother) | hother
    · exact .inl hother
    · exact absurd hother hnot.2
    · exact .inr hother
  · intro other hlt' hnot
    simp only [List.mem_append, List.mem_singleton, not_or] at hnot
    exact ((agree_modify _ _ hnot.2).trans (hexchange.agree other (by simpa using hlt') hnot.1)).trans
      (hagree other hnot.2)
  · intro other hlt' hnot p hp
    simp only [List.mem_append, List.mem_singleton, not_or] at hnot
    exact hkept other hlt' hnot.1 p (hasked.others hnot.2 hp)
  · intro hcalm
    exact hexchange.calm (hasked.calm (by simp) (by simp) hcalm)

/-- Rendering a lexem adds what its slot holds. -/
theorem RenderStep.turn (hrender : Renders k render) {slot : Slot}
    (h : Engine.RenderStep b render e c lexem σ slot σ') : Turn k.toChronicle σ [] σ' [slot] := by
  cases h with
  | skipped => exact .born (by simp) .refl
  | compound _ _ hdevelop hinner =>
      exact .born (by simp) ((Renewal.evaluation k Engine.develop_inWorld hdevelop).trans (hrender hinner))
  | «attribute» | text | listener | raw => exact .born (by simp) (.onHost k)
  | element _ _ _ _ hinner =>
      exact .born (by simp) ((Renewal.onHost k).trans (chain_renewal k (fun h => hrender h) hinner))
  | branch _ _ hchoice hchosen hinner =>
      refine .born (by simp) ((Renewal.evaluation k (Engine.choice_inWorld hchoice) hchosen).trans ?_)
      exact (chain_renewal k (fun h => hrender h) hinner).trans (Renewal.onHost k)
  | each _ _ hphrases hinner =>
      refine .born (by simp) ((Renewal.evaluation k Engine.eachPhrases_inWorld hphrases).trans ?_)
      exact (chain_renewal k (fun h => hrender h) hinner).trans (Renewal.onHost k)
  | hook _ _ _ hcall =>
      exact .born (by simp) ((Renewal.onHost k).trans (Renewal.inWorld k (k.hookRender _ _ _ _ hcall)))
  | callback _ _ _ hcall => exact .born (by simp) (Renewal.inWorld k (k.callback _ _ hcall))
  | name _ _ hname => exact (nameNode_turn k hname).trans (.born (by simp) .refl)
  | component _ _ _ hcreate hwill hview hinner hdid =>
      exact mount_turn k hrender hcreate hwill hview hinner hdid

/-- Diffing a lexem exchanges what its slot holds. -/
theorem DiffStep.turn (hrender : Renders k render) (hdiff : Diffs k diff) {slot slot' : Slot}
    (h : Engine.DiffStep b render diff e c lexem old σ slot slot' σ') :
    Turn k.toChronicle σ [slot] σ' [slot'] := by
  cases h with
  | kept => exact .refl
  | redeveloped _ _ _ hdevelop hrun =>
      exact .part (by simp) (by simp)
        ((Renewal.evaluation k Engine.develop_inWorld hdevelop).trans (hdiff hrun))
  | rewritten | text | rebound => exact .onHost k
  | moved => exact .part (by simp) (by simp) (Renewal.onHost k)
  | raw => exact .part (by simp) (by simp) (Renewal.onHost k)
  | retagged _ _ _ _ hstep hremove =>
      exact ((RenderStep.turn k hrender hstep).append_right _).trans
        ((teardownSlot_turn k hremove).append_left [_])
  | tag _ _ _ _ hkids hrest =>
      refine .part (by simp) (by simp) ((matching_renewal k ?_ ?_ hkids).trans ?_)
      · rintro _ _ _ _ ⟨phrase, -, hrun⟩
        exact hrender hrun
      · intro _ _ _ _ _ hchild
        cases hchild with
        | same => exact .refl
        | diffed _ hrun => exact hdiff hrun
      · exact leftovers_renewal k hrest
  | branch _ _ hchoice _ hchosen hrun =>
      exact .part (by simp) (by simp)
        ((Renewal.evaluation k (Engine.choice_inWorld hchoice) hchosen).trans (hdiff hrun))
  | flipped _ _ hchoice _ hchosen hremove hinner =>
      refine .part (by simp) (by simp)
        ((Renewal.evaluation k (Engine.choice_inWorld hchoice) hchosen).trans ?_)
      exact (teardowns_renewal k hremove).trans (chain_renewal k (fun h => hrender h) hinner)
  | each _ _ hphrases hitems hrest =>
      refine .part (by simp) (by simp)
        ((Renewal.evaluation k Engine.eachPhrases_inWorld hphrases).trans ?_)
      exact (matching_renewal k (fun h => hrender h) (fun h => hdiff h) hitems).trans
        (leftovers_renewal k hrest)
  | hook _ _ _ _ hcall => exact (Turn.onHost k).trans (Turn.inWorld k (k.hookDiff _ _ _ _ _ hcall))
  | rehooked _ _ _ _ _ hremove hcall =>
      exact (Turn.onHost k).trans (Turn.inWorld k ((k.hookRemove _ _ _ _ hremove).trans
        (k.hookRender _ _ _ _ hcall)))
  | callback _ _ _ _ hcall => exact .inWorld k (k.callback _ _ hcall)
  | name _ _ hname => exact nameNode_turn k hname
  | @component id factory w σ' _ _ _ _ _ htold hupdate =>
      intro cs hholds hmounted
      have hheard := k.lifecycle htold
      have hid : id ∈ cs := Holds.mem_of_reachable (.here List.mem_cons_self) hholds
      obtain ⟨cs', hholds', hexchange⟩ := update_exchange k hdiff hupdate hholds hmounted.nodup
        (fun other hother hne => hheard.others hne (hmounted.live other hother))
        (fun other hother => hheard.others
          (fun heq => absurd (hholds.index_lt id hid) (by rw [← heq]; exact Nat.not_lt.mpr hother))
          (hmounted.unborn other hother))
        (hheard.own (hmounted.live id hid) .setProps) .answer
      refine ⟨cs', hholds', hexchange.mounted, hexchange.grows, hexchange.source, hexchange.gone,
        hexchange.agree, fun other hlt hnot p hp => ?_, fun hcalm => ?_⟩
      · exact hexchange.kept other hlt hnot p (hheard.others (fun heq => hnot (heq ▸ hid)) hp)
      · exact hexchange.calm (hheard.calm (by simp [Lifecycle.cue]) (by simp [Lifecycle.cue]) hcalm)

/-- The slots of a sentence that is rendered, lexem by lexem. -/
theorem renderChain_turn (hrender : Renders k render) {lexems : List Lexem} {slots : List Slot}
    (h : Chain (Engine.renderLexem b render e c) lexems σ slots σ') : Turn k.toChronicle σ [] σ' slots := by
  induction h with
  | nil => exact .refl
  | cons head _ ih => exact (RenderStep.turn k hrender (Engine.renderLexem_step head)).trans (ih.append_left [_])

/-- The slots of a sentence that is diffed, lexem by lexem. -/
theorem DiffSteps.turn (hrender : Renders k render) (hdiff : Diffs k diff) {lexems olds : List Lexem}
    {slots slots' : List Slot} (h : Engine.DiffSteps b render diff e c lexems olds slots σ slots' σ') :
    Turn k.toChronicle σ slots σ' slots' := by
  induction h with
  | nil => exact .refl
  | cons _ head _ ih =>
      exact ((DiffStep.turn k hrender hdiff head).append_right _).trans (ih.append_left [_])

end Steps

theorem renderWithin_renewal {depth : Nat} : Renders k (Engine.renderWithin b depth e) := by
  induction depth with
  | zero =>
      intro c phrase σ r σ' h
      cases h
  | succ depth ih =>
      intro c phrase σ r σ' h _
      obtain ⟨slots, rfl, hchain⟩ := Engine.renderPhrase_ok h
      refine ⟨by simp [Rendered.Paired, hchain.length_eq], ?_⟩
      simpa using renderChain_turn k ih hchain

theorem diffWithin_renewal {depth : Nat} : Diffs k (Engine.diffWithin b depth) := by
  induction depth with
  | zero =>
      intro e c phrase previous σ r σ' h
      cases h
  | succ depth ih =>
      intro e c phrase previous σ r σ' h hpaired
      replace hpaired := hpaired previous List.mem_cons_self
      rcases Engine.diffPhrase_ok hpaired h with ⟨-, rfl, rfl⟩ | ⟨-, slots, rfl, hsteps⟩
      · exact ⟨by simpa using hpaired, .refl⟩
      · refine ⟨by simp [Rendered.Paired, hsteps.length_eq], ?_⟩
        simpa using DiffSteps.turn k (renderWithin_renewal k) ih hsteps

end Parlance
