import Parlance.Proofs.Engine.Revising
import Parlance.Proofs.Html.TagChildren

/-! Inputs follow the state. With live properties a diff puts right what was typed into the properties of its words, as
far as it comes to see them: what counts as unchanged on the way to a word is overlooked, as its development is kept
untouched. So it is after every diff of a run, whatever else has been written to properties in between. -/

namespace Parlance

open Pass

variable {ω : Type} {b : Behaviour ω} {e : Engine} {c : Cursor} {lexem old : Lexem} {slot slot' : Slot} {p : NodeId}
variable {σ σ₁ σ' : Stage ω}
variable {render : Cursor → Phrase → Pass ω Rendered} {diff : Engine → Cursor → Phrase → Rendered → Pass ω Rendered}

variable (b e) in
/-- A diff as deep as one likes puts properties right, unless the sentence is the very one that was rendered. -/
structure DiffRevises (diff : Engine → Cursor → Phrase → Rendered → Pass ω Rendered) : Prop where
  evolves : ∀ ρ : Regime, DiffEvolves ρ b diff
  diffs : Diffs (Watch.blind b) diff
  revises : ∀ ⦃c phrase previous σ r σ'⦄, diff e c phrase previous σ = .ok r σ' → previous.Paired →
    RevisesAll e c.parent (fun _ r => e.reuses phrase r = true) σ [previous] σ' [r]

theorem Engine.identical_of_reuses {phrase : Phrase} {r : Rendered} (h : e.reuses phrase r = true) :
    e.config.reuseIdentical = true ∧ r.identity.isSome = true := by
  simp only [Engine.reuses, Bool.and_eq_true, decide_eq_true_eq] at h
  exact ⟨h.1.1, h.2 ▸ h.1.2⟩

/-- A component that is rendered again puts the properties of its output right. -/
theorem update_revises (hdiff : DiffRevises b e diff) {id : InstanceId} (hcongruent : lexem.isCongruent old = true)
    (hown : e.property? (p, lexem) = none) (hupdate : Engine.UpdateStep b diff id σ σ') :
    Revises e p σ old (.component id) σ' lexem (.component id) := by
  intro cs posts hholds hnodup hcensus hgrounded hseemly word hword k hk
  have hevolves : Evolves (.lasting e) b p (fun _ => True) σ [old] [.component id] σ' [lexem] [.component id] :=
    update_evolves (hdiff.evolves _) hdiff.diffs (.congr hcongruent rfl) hupdate
  obtain ⟨cs', hholds', -⟩ := hevolves.turn cs hholds (mounted_blind hnodup)
  obtain ⟨posts', hcensus', -⟩ := hevolves.moves hholds hnodup hcensus hseemly.orderly.follows
  obtain ⟨i, previous, inner, rfl, hpresent, hdeveloped, hpaired, hlater, hinner⟩ := hholds.of_component
  obtain ⟨innerPosts, witness, rfl, rfl, hadmits, -, -, hcensusInner⟩ := hcensus.of_component hpresent hdeveloped
  obtain rfl : i.engine = e := hadmits e rfl
  cases hupdate with
  | absent habsent => simp [habsent] at hpresent
  | @viewed _ _ next s w σ₁ hpresent₁ hdeveloped₁ hview hrun =>
  rw [hpresent] at hpresent₁
  cases hpresent₁
  rw [hdeveloped] at hdeveloped₁
  cases hdeveloped₁
  have hagree : ∀ child ∈ inner, Agree σ.instances (σ.instances.modify id.index fun i =>
      { i with developed := none }) child := fun child hchild =>
    agree_modify _ _ fun heq => absurd (hlater child hchild) (heq ▸ Nat.lt_irrefl _)
  have hinner₁ := hinner.congr hagree
  obtain ⟨hwords', inner', hinner', hagree'⟩ := wordsIn_modified (t := σ₁.instances)
    (g := fun i => { i with developed := some next }) hholds' hcensus' rfl fun _ => rfl
  have hback : ∀ child ∈ inner', Agree _ σ₁.instances child := fun child hchild => Eq.symm (hagree' child hchild)
  obtain ⟨j, r, -, -, hpresent', hdeveloped', -⟩ := hholds'.of_component
  obtain rfl : r = next := by
    rw [Stage.onInstance_instances, Array.getElem?_modify, if_pos rfl, Option.map_eq_some_iff] at hpresent'
    obtain ⟨j', -, rfl⟩ := hpresent'
    exact (Option.some.inj hdeveloped').symm
  have hwords : wordsIn _ _ [old] [.component id] = _ := wordsIn_component hholds hpresent hdeveloped rfl
  have hseemlyInner : Seemly i.engine (σ.instances.modify id.index fun i => { i with developed := none }) σ₁.instances
      i.parent previous.sentence.lexems previous.slots r.sentence.lexems r.slots := by
    have horderly := match hseemly.orderly with
      | .cons _ _ _ hcomponent _ => hcomponent id i previous j r rfl rfl hpresent hdeveloped hpresent' hdeveloped'
    have hformer := hseemly.former
    rw [Engine.propertiesIn, hwords, List.filterMap_append] at hformer
    have hproper := hseemly.proper.of_words hwords'
    have hwhole : Seemly i.engine σ.instances _ i.parent previous.sentence.lexems previous.slots r.sentence.lexems r.slots :=
      ⟨horderly, (List.nodup_append.mp hformer).1, hproper.congr hinner' hagree'⟩
    exact hwhole.congr hinner (hinner'.congr hagree') hagree hback
  have hrevised := hdiff.revises hrun hpaired
  simp only [RevisesAll, lexemsOf_cons, slotsOf_cons, lexemsOf_nil, slotsOf_nil, List.append_nil] at hrevised
  have hnodup' : inner.Nodup := hnodup.sublist (List.sublist_append_left _ _)
  rw [hwords', List.mem_append, List.mem_singleton] at hword
  rcases hword with hword | rfl
  · refine (hrevised hinner₁ hnodup' (hcensusInner.congr hinner hagree) hgrounded.left hseemlyInner word hword k
      hk).imp_right ?_
    rintro ⟨hover, hold, hsame⟩
    refine ⟨?_, ?_, hsame⟩
    · rcases hover with hover | ⟨_, _, -, -, hskips, -⟩
      · have hplace : ((old, Slot.component id), (lexem, Slot.component id)) ∈
            ([old].zip [.component id]).zip ([lexem].zip [.component id]) := by simp
        refine .component hplace hpresent hdeveloped hpresent' hdeveloped' ?_
        simp only [lexemsOf_cons, slotsOf_cons, lexemsOf_nil, slotsOf_nil, List.append_nil] at hover
        exact hover.congr hinner₁ hinner' (fun id hid => Eq.symm (hagree id hid)) hagree'
      · simp [Engine.reuses, Phrase.new] at hskips
    · rw [hwords]
      exact List.mem_append_left _ (wordsIn_congr hinner hagree ▸ hold)
  · rw [hown] at hk
    cases hk

/-- Where a tag is carried out, an element has come, or nothing. -/
theorem RenderStep.tag_slot (hword : e.instruction? lexem = some .tag)
    (h : Engine.RenderStep b render e c lexem σ slot σ') : (∃ n kids, slot = .element n kids) ∨ slot = .skipped := by
  cases h with
  | element => exact .inl ⟨_, _, rfl⟩
  | skipped => exact .inr rfl
  | compound _ hother | text _ hother | listener _ hother | each _ hother | raw _ hother | hook _ hother
  | callback _ hother | name _ hother | component _ hother => simp [hword] at hother
  | «attribute» _ hother hwrites =>
      rw [hword] at hother
      cases hother
      cases hwrites
  | branch _ hother hchoice =>
      rw [hword] at hother
      cases hother
      cases hchoice

/-- A tag that is put in the place of one of another name has all its properties on new elements. -/
theorem retagged_revises {node : NodeId} {kids : List Rendered} (hhooks : b.LeavesProperties)
    (hrender : RenderFills b e render) (hword : e.instruction? lexem = some .tag)
    (hstep : Engine.RenderStep b render e (c.before node) lexem σ slot' σ₁)
    (hremove : teardownSlot b c.parent old (.element node kids) σ₁ = .ok () σ') :
    Revises e c.parent σ old (.element node kids) σ' lexem slot' := by
  have hput : Evolving b e c.parent σ [] [] σ₁ [lexem] [slot'] := fun ρ hadmits =>
    ⟨_, RenderStep.evolves (c := c.before node) hadmits (hrender.evolves ρ hadmits) hrender.renders hstep⟩
  have hremoved : Evolving b e c.parent σ₁ [old] [.element node kids] σ' [] [] := fun ρ _ =>
    ⟨fun _ => True, teardownSlot_evolves hremove⟩
  have hahead : Evolves (.lasting e) b c.parent (Ahead (some node)) σ [] [] σ₁ [lexem] [slot'] :=
    RenderStep.evolves (c := c.before node) (Evolving.admits e) (hrender.evolves _ (Evolving.admits e)) hrender.renders hstep
  have hfills : Fills e c.parent σ σ₁ [lexem] [slot'] := RenderStep.fills (c := c.before node) hhooks hrender hstep
  intro cs posts hholds hnodup hcensus hgrounded
  have hnew : Refreshes e c.parent σ [] [] σ₁ [lexem] [slot'] fun _ => False := hfills.refreshes _
  have hgone : Refreshes e c.parent σ₁ [old] [.element node kids] σ' [] [] fun _ => False :=
    .idle fun _ hmem => by simp [wordsIn_nil] at hmem
  refine Refreshes.append hhooks (by rfl) (by rfl) (fun hslots' hagree _ => ⟨.fresh, .gone, ?_⟩) hput hremoved hnew hgone
    (fun _ _ _ => False.elim) (fun _ _ _ => False.elim) hholds hnodup hcensus hgrounded
  -- the old words are on nodes that the host had, and the new ones are not
  intro k hnew hold
  obtain ⟨word, hmem, hk⟩ := mem_propertiesIn.mp hold
  have hmade := hcensus.made hholds hgrounded hmem
  obtain ⟨-, -, rfl⟩ := Engine.property?_eq_some.mp hk
  rw [propertiesIn_congr hslots' hagree] at hnew
  obtain ⟨posts', hcensus', helements⟩ := hahead.elements hhooks hgrounded.parent
  obtain ⟨word', hmem', hk'⟩ := mem_propertiesIn.mp hnew
  rw [hcensus'.wordsIn_eq hslots', List.mem_map] at hmem'
  obtain ⟨post, hpost, rfl⟩ := hmem'
  have hnone : ∀ mark, post = ⟨c.parent, lexem, mark⟩ → False := by
    rintro mark rfl
    rw [Post.word, Engine.property?_eq_none hword (by simp)] at hk'
    cases hk'
  cases hcensus' with
  | component => rcases RenderStep.tag_slot hword hstep with ⟨_, _, h⟩ | h <;> cases h
  | part hslot _ hinner houter =>
  cases houter
  rw [List.mem_append, List.mem_singleton] at hpost
  rcases hpost with hpost | hpost
  · rcases RenderStep.tag_slot hword hstep with ⟨n, kids', rfl⟩ | rfl
    · refine absurd (helements post.node ?_) (Nat.not_le.mpr ?_)
      · rw [elementsOf_append, List.mem_append]
        rcases hinner.node_mem post hpost with heq | hmem
        · exact .inr (mem_elementsOf.mpr ⟨_, List.mem_cons_self, by rw [heq]; rfl⟩)
        · exact .inl hmem
      · obtain ⟨-, -, heq⟩ := Engine.property?_eq_some.mp hk'
        rwa [show word.1 = post.node from (Prod.mk.inj heq).1] at hmade
    · cases hinner
      cases hpost
  · exact hnone _ hpost

/-- Diffing a lexem puts right what the diff comes to see. -/
theorem DiffStep.revises (hhooks : b.LeavesProperties) (hlive : e.config.liveProperties = true)
    (hrender : RenderFills b e render) (hdiff : DiffRevises b e diff) (hcongruent : lexem.isCongruent old = true)
    (h : Engine.DiffStep b render diff e c lexem old σ slot slot' σ') :
    Revises e c.parent σ old slot σ' lexem slot' := by
  have hlasting := Evolving.admits e
  have hpair : ∀ {phrase previous r} {c : Cursor} {σ σ' : Stage ω}, diff e c phrase previous σ = .ok r σ' →
      (∀ r ∈ [previous], r.Paired) → ∀ r' ∈ [r], r'.Paired := fun hrun hpaired =>
    ((hdiff.evolves _ hlasting hrun).2.renewal hpaired).1
  have hreused : ∀ {phrase : Phrase} {index : Nat} {r : Rendered}, e.reuses phrase r = true → e.Skips lexem old index r :=
    fun hreuses => .inl (Engine.identical_of_reuses hreuses)
  cases h with
  | kept hkept => exact .unchanged hcongruent hkept
  | redeveloped _ hword _ hdevelop hrun =>
      refine .inside (by simp) (by simp) rfl (Engine.property?_eq_none hword (by simp)) (by simp [Engine.renews, hword])
        fun hpaired => ⟨hpair hrun hpaired, ?_⟩
      exact (hdiff.revises hrun (hpaired _ List.mem_cons_self)).mono fun _ _ => hreused
  | rewritten hspace _ hword hrewrite => exact .rewritten hspace hcongruent hword hlive hrewrite
  | text _ hword | moved _ hword | rebound _ hword | raw _ hword | hook _ hword | rehooked _ hword =>
      exact .single (by simp) rfl (Engine.property?_eq_none hword (by simp))
  | retagged hword _ _ _ hstep hremove => exact retagged_revises hhooks hrender hword hstep hremove
  | @tag node tag kids kids' rest σ₁ _ hspace hword htag holdTag hkids hrest =>
      have hnew : ∀ ρ : Regime, ρ.Admits e → ∀ {child : Arg × Option Arg} {σ r σ'},
          (∃ phrase, e.childPhrase lexem child.1 = .ok phrase ∧ render (c.inside node) phrase σ = .ok r σ') →
          EvolvesAll ρ b node (Ahead none) σ [] σ' [r] := by
        rintro ρ hadmits _ _ _ _ ⟨_, _, hrun⟩
        exact hrender.evolves ρ hadmits hrun
      have hkept : ∀ ρ : Regime, ρ.Admits e → ∀ {child old σ r σ'},
          Engine.ChildStep diff e (c.inside node) lexem child old σ r σ' →
          (old.Paired → r.sentence.lexems.length = old.sentence.lexems.length) ∧
            EvolvesAll ρ b node (fun _ => True) σ [old] σ' [r] := by
        intro ρ hadmits _ _ _ _ _ hchild
        cases hchild with
        | same => exact ⟨fun _ => rfl, .refl⟩
        | diffed _ hrun => exact hdiff.evolves ρ hadmits hrun
      refine .inside (by simp) (by simp) rfl (Engine.property?_eq_none hword (by simp)) ?_ fun hpaired => ⟨?_, ?_⟩
      · simp [Engine.renews, hword, Lexem.stringArg_ok.mp htag, Lexem.stringArg_ok.mp holdTag]
      · exact ((swept_evolves (hnew _ hlasting) (hkept _ hlasting) hkids hrest hpaired).renewal hpaired).1
      · refine RevisesAll.mono (swept_revises (fun child r => (∃ phrase, e.reuses phrase r = true) ∨
          child.2.any (·.same child.1) = true) hhooks hnew hkept ?_ ?_ hkids hrest hpaired) ?_
        · rintro _ _ _ _ ⟨_, -, hrun⟩
          exact hrender.fills hrun
        · intro _ _ _ _ _ hchild hold
          cases hchild with
          | same hsame => exact .still (.inr hsame)
          | diffed _ hrun => exact (hdiff.revises hrun hold).mono fun _ _ hreuses => .inl ⟨_, hreuses⟩
        · rintro index r ⟨child, hchild, ⟨_, hreuses⟩ | hsame⟩
          · exact hreused hreuses
          · exact .inr ⟨hword, child, hchild, hsame⟩
  | @branch i _ _ _ _ _ _ _ _ _ hword hchoice hflips hchosen hrun =>
      have hother : i ≠ .prop := by rintro rfl; cases hchoice
      refine .inside (by simp) (by simp) rfl (Engine.property?_eq_none hword (by simpa using hother)) ?_
        fun hpaired => ⟨hpair hrun hpaired, ?_⟩
      · cases i <;> cases hchoice <;> simp [Engine.renews, hword, hflips]
      · exact (hdiff.revises hrun (hpaired _ List.mem_cons_self)).mono fun _ _ => hreused
  | @flipped i _ _ chosen w witness developed developed' σ₁ _ _ hword hchoice _ hchosen hremove hinner =>
      have hother : i ≠ .prop := by rintro rfl; cases hchoice
      have hparts := chain_fills hhooks hrender hinner
      exact .renewed (by simp) (by simp) rfl (Engine.property?_eq_none hword (by simpa using hother)) hhooks
        (fun hpaired ρ hadmits => ⟨_, ((teardowns_evolves hremove).evaluated
          (evaluation_of (Engine.choice_inWorld hchoice) hchosen)).evolves hpaired⟩) hparts.1 hparts.2
  | @each _ w witness items items' rest σ₁ _ hspace hword hphrases hitems hrest =>
      have hnew : ∀ ρ : Regime, ρ.Admits e → ∀ {phrase σ r σ'}, render (c.before witness) phrase σ = .ok r σ' →
          EvolvesAll ρ b c.parent (Ahead (some witness)) σ [] σ' [r] := fun ρ hadmits _ _ _ _ hrun =>
        hrender.evolves ρ hadmits hrun
      have hkept : ∀ ρ : Regime, ρ.Admits e → ∀ {phrase old σ r σ'},
          diff e (c.before witness) phrase old σ = .ok r σ' →
          (old.Paired → r.sentence.lexems.length = old.sentence.lexems.length) ∧
            EvolvesAll ρ b c.parent (fun _ => True) σ [old] σ' [r] := fun ρ hadmits _ _ _ _ _ hrun =>
        hdiff.evolves ρ (c := c.before witness) hadmits hrun
      refine .inside (by simp) (by simp) rfl (Engine.property?_eq_none hword (by simp)) (by simp [Engine.renews, hword])
        fun hpaired => ⟨?_, ?_⟩
      · exact ((swept_evolves (hnew _ hlasting) (hkept _ hlasting) hitems hrest hpaired).renewal hpaired).1
      · have hrevises : RevisesAll e c.parent _ (σ.inWorld w) items σ' items' :=
          swept_revises (fun phrase r => e.reuses phrase r = true) hhooks hnew hkept
            (fun hrun => hrender.fills (c := c.before witness) hrun)
            (fun hrun hold => hdiff.revises (c := c.before witness) hrun hold) hitems hrest hpaired
        refine RevisesAll.mono hrevises ?_
        rintro index r ⟨phrase, -, hreuses⟩
        exact hreused hreuses
  | callback _ hword =>
      exact .kept (by simp [Engine.leaves, hword]) (fun _ => rfl) rfl fun _ _ =>
        Engine.property?_eq_none hword (by simp)
  | name _ hword hname =>
      obtain ⟨t, rfl, hsize, hagree⟩ := nameNode_ok hname
      exact .kept (by simp [Engine.leaves, hword]) hagree rfl fun _ _ => Engine.property?_eq_none hword (by simp)
  | component _ hword _ _ _ htold hupdate =>
      have hrevises : Revises e c.parent _ old _ _ lexem _ := update_revises hdiff hcongruent
        (Engine.property?_eq_none hword (by simp)) hupdate
      exact hrevises

/-- The slots of a sentence are put right one by one, each in the place of one. -/
theorem DiffSteps.revises (hhooks : b.LeavesProperties) (hlive : e.config.liveProperties = true)
    (hrender : RenderFills b e render) (hdiff : DiffRevises b e diff) {lexems olds : List Lexem}
    {slots slots' : List Slot} (h : Engine.DiffSteps b render diff e c lexems olds slots σ slots' σ') :
    Refreshes e c.parent σ olds slots σ' lexems slots'
      fun word => Overlooks e σ.instances σ'.instances word c.parent olds slots lexems slots' := by
  induction h with
  | nil => exact .idle fun word hword => by simp [wordsIn_nil] at hword
  | @cons lexem old lexems olds slot slot' slots slots' σ σ₁ σ' hcongruent head tail ih =>
      have hevolving : Evolving b e c.parent σ [old] [slot] σ₁ [lexem] [slot'] := fun ρ hadmits => ⟨fun _ => True,
        DiffStep.evolves hadmits hcongruent (hrender.evolves ρ hadmits) hrender.renders (hdiff.evolves ρ) hdiff.diffs head⟩
      have hrest : Evolving b e c.parent σ₁ olds slots σ' lexems slots' := fun ρ hadmits => ⟨fun _ => True,
        DiffSteps.evolves hadmits (hrender.evolves ρ hadmits) hrender.renders (hdiff.evolves ρ) hdiff.diffs tail⟩
      have hbeside : Beside [old] olds [slot] slots [lexem] := .inl rfl
      have hlength : [lexem].length = [slot'].length := rfl
      have hplaces := hbeside.places rfl hlength lexems slots'
      refine Refreshes.append hhooks rfl rfl (fun _ _ => hbeside.orderly rfl rfl) hevolving hrest
        (DiffStep.revises hhooks hlive hrender hdiff hcongruent head) ih ?_ ?_
      · intro as as' word ha ha' hagree hoverlooks
        refine (hoverlooks.congr ha ha' (fun _ _ => rfl) hagree).of_places fun x hx => ?_
        exact hplaces ▸ List.mem_append_left _ hx
      · intro cs cs' word hc hc' hagree hoverlooks
        refine (hoverlooks.congr hc hc' hagree fun _ _ => rfl).of_places fun x hx => ?_
        exact hplaces ▸ List.mem_append_right _ hx

theorem diffWithin_revises (hhooks : b.LeavesProperties) (hlive : e.config.liveProperties = true) {depth : Nat} :
    DiffRevises b e (Engine.diffWithin b depth) := by
  refine ⟨fun ρ => diffWithin_evolves, diffWithin_renewal _, ?_⟩
  induction depth with
  | zero =>
      intro c phrase previous σ r σ' h
      cases h
  | succ depth ih =>
      intro c phrase previous σ r σ' h hpaired
      rcases Engine.diffPhrase_ok hpaired h with ⟨hreuses, rfl, rfl⟩ | ⟨-, slots, rfl, hsteps⟩
      · exact .still hreuses
      · have hrevises := DiffSteps.revises hhooks hlive (renderWithin_fills hhooks)
          ⟨fun ρ => diffWithin_evolves, diffWithin_renewal _, ih⟩ hsteps
        unfold RevisesAll
        simp only [lexemsOf_cons, slotsOf_cons, lexemsOf_nil, slotsOf_nil, List.append_nil]
        refine hrevises.mono fun word hoverlooks => .inl ?_
        simpa using hoverlooks

/-- With live properties, after any successful diff of a run every word for a property in the new output, at any depth,
shows its value on its node, or the diff has overlooked it, as something on the way to it counts as unchanged; then the
word stood there before, and its property is as it was. Between two passes of the run anything may happen to the host,
but that it forgets nodes. -/
theorem inputs_follow (hlive : e.config.liveProperties = true) (hhooks : b.LeavesProperties) {σ₀ : Stage ω}
    {before after : Outputs} {s : Sentence} {r r' : Rendered}
    (hrun : Run (.lasting e) b (fun h _ h' _ => h.count ≤ h'.count) σ₀ (before ++ (p, r) :: after) σ)
    (hpass : e.diff b p s r σ = .ok r' σ')
    (hseemly : Seemly e σ.instances σ'.instances p r.sentence.lexems r.slots r'.sentence.lexems r'.slots) :
    ∀ word ∈ r'.words σ'.instances p, ∀ k, e.property? word = some k → σ'.host.Shows word ∨
      Overlooks e σ.instances σ'.instances word p r.sentence.lexems r.slots r'.sentence.lexems r'.slots ∧
        word ∈ r.words σ.instances p ∧ σ'.host.property? k.1 k.2 = σ.host.property? k.1 k.2 := by
  have hnodes : b.KeepsNodes := fun hcall => (hhooks p "" hcall).1
  obtain ⟨cs, posts, ⟨hpaired, hholds, hnodup, hposted⟩, hgrounded, -, hmade⟩ := hrun.sustained
    (I := fun σ posts => ∀ n ∈ elementsOf posts, n.index < σ.host.count) (fun hmove => hmove.made) id hnodes
    (fun _ => id) id (fun hcount hposts n hn => Nat.lt_of_lt_of_le (hposts n hn) hcount) (by simp [elementsOf])
  obtain ⟨left, right, rfl, -, hown⟩ := hposted.split
  cases hown with
  | @cons _ _ _ own rest hcensus _ =>
  have hslots : Outputs.slots (before ++ (p, r) :: after) = before.slots ++ (r.slots ++ after.slots) := by
    simp [Outputs.slots]
  rw [hslots] at hholds
  obtain ⟨ids, ids', rfl, -, hrest⟩ := hholds.split
  obtain ⟨cs, _, rfl, hheld, -⟩ := hrest.split
  have hnodup' : cs.Nodup := hnodup.sublist ((List.sublist_append_left _ _).trans (List.sublist_append_right _ _))
  have hground : Grounded σ.host p own := ⟨hgrounded (p, r) (by simp), fun n hn => hmade n (by simp [hn])⟩
  have hrevises := (diffWithin_revises hhooks hlive).revises hpass (hpaired (p, r) (by simp))
  simp only [RevisesAll, lexemsOf_cons, slotsOf_cons, lexemsOf_nil, slotsOf_nil, List.append_nil] at hrevises
  intro word hword k hk
  rw [Rendered.words_eq] at hword ⊢
  refine (hrevises hheld hnodup' hcensus hground hseemly word hword k hk).imp_right ?_
  rintro ⟨hover, hrest⟩
  refine ⟨?_, hrest⟩
  rcases hover with hover | ⟨_, _, -, -, hskips, -⟩
  · simp only [lexemsOf_cons, slotsOf_cons, lexemsOf_nil, slotsOf_nil, List.append_nil] at hover
    exact hover
  · simp [Engine.reuses, Phrase.new] at hskips

/-- An input with a saved value. -/
def Sentence.saved (i : Identity) : Sentence :=
  .plain [("tag", [.str "input", .sentence i (.plain [("prop", [.str "value", .str "saved"])])])]

/-- Whether an output is of such a sentence, and what is between its values and itself. -/
def Rendered.isSaved (t : Array Instance) (r : Rendered) : Bool :=
  match r.sentence.lexems, r.slots with
  | [⟨_, _, _ :: _⟩], [.element _ [⟨_, ⟨_, _, [⟨_, _, _ :: _⟩]⟩, [.attribute]⟩]] =>
    (Engine.plain.propertiesIn t Host.root r.sentence.lexems r.slots = [(⟨1⟩, "value")]) &&
      (wordsIn t Host.root r.sentence.lexems r.slots).all fun word => (word.2.scalarArg 1).toOption.all fun v => v.equals v
  | _, _ => false

theorem Rendered.seemly_of_isSaved {t t' : Array Instance} {r r' : Rendered} (h : r.isSaved t = true)
    (h' : r'.isSaved t' = true) :
    Seemly .plain t t' Host.root r.sentence.lexems r.slots r'.sentence.lexems r'.slots := by
  unfold Rendered.isSaved at h h'
  split at h
  next hlexems hslots =>
    split at h'
    next hlexems' hslots' =>
      simp only [Bool.and_eq_true, decide_eq_true_eq, List.all_eq_true] at h h'
      refine ⟨?_, by simp [h.1], by simp [h'.1], fun word hword k _ value hvalue => ?_⟩
      · rw [hlexems, hslots, hlexems', hslots']
        refine .cons (by rintro ⟨⟩) (fun _ _ hk => ?_) (fun _ =>
          .cons (by rintro ⟨⟩) (fun _ _ hk => ?_) (fun _ => .gone) ?_ .gone) ?_ .gone
        all_goals first | (rintro _ _ _ _ _ ⟨⟩) | simp [Engine.propertiesIn, wordsIn_nil] at hk
      · simpa [hvalue, Except.toOption] using h'.2 word hword
    next => cases h'
  next => cases h

/-- What was typed into the property gives way to the value, as the sentence is another one. -/
theorem inputs_follow_saved : ∃ r σ₁ r' σ₂,
    Engine.plain.render Behaviour.inert Host.root (.saved ⟨1⟩) ⟨.new, #[], ()⟩ = .ok r σ₁ ∧
    Engine.plain.diff Behaviour.inert Host.root (.saved ⟨2⟩) r
      (σ₁.onHost (·.setProperty ⟨1⟩ "value" (.str "typed"))) = .ok r' σ₂ ∧
    σ₂.host.property? ⟨1⟩ "value" = some (.str "saved") ∧
    ∀ word ∈ r'.words σ₂.instances Host.root, ∀ k, Engine.plain.property? word = some k → σ₂.host.Shows word ∨
      Overlooks .plain σ₁.instances σ₂.instances word Host.root r.sentence.lexems r.slots r'.sentence.lexems r'.slots ∧
        word ∈ r.words σ₁.instances Host.root ∧ σ₂.host.property? k.1 k.2 =
          (σ₁.host.setProperty ⟨1⟩ "value" (.str "typed")).property? k.1 k.2 := by
  have hcheck : Pass.check (Engine.plain.render Behaviour.inert Host.root (.saved ⟨1⟩)) ⟨.new, #[], ()⟩
      (fun r σ₁ => Pass.check (Engine.plain.diff Behaviour.inert Host.root (.saved ⟨2⟩) r)
        (σ₁.onHost (·.setProperty ⟨1⟩ "value" (.str "typed"))) fun r' σ₂ => r.isSaved σ₁.instances &&
          r'.isSaved σ₂.instances && decide (σ₂.host.property? ⟨1⟩ "value" = some (.str "saved"))) = true := by rfl
  obtain ⟨r, σ₁, hrender, hcheck⟩ := exists_of_check hcheck
  obtain ⟨r', σ₂, hdiff, hcheck⟩ := exists_of_check hcheck
  simp only [Bool.and_eq_true, decide_eq_true_eq] at hcheck
  obtain ⟨⟨hold, hnew⟩, hvalue⟩ := hcheck
  have hadmits : (Regime.lasting .plain).Admits .plain := fun _ => Option.some.inj
  have hfirst : Run (.lasting .plain) Behaviour.inert (fun h _ h' _ => h.count ≤ h'.count) ⟨.new, #[], ()⟩
      ([] ++ (Host.root, r) :: []) σ₁ := .render .start hadmits (by decide) hrender fun _ _ => trivial
  refine ⟨r, σ₁, r', σ₂, hrender, hdiff, hvalue, inputs_follow rfl ?_
    (hfirst.between (h := σ₁.host.setProperty ⟨1⟩ "value" (.str "typed")) (w := ()) ?_) hdiff
    (Rendered.seemly_of_isSaved hold hnew)⟩
  · rintro n name h w h' w' (⟨⟨⟩⟩ | ⟨⟨⟩⟩ | ⟨⟨⟩⟩) <;> exact ⟨Nat.le_refl _, fun _ => rfl⟩
  · exact Nat.le_of_eq (Host.count_modify _ _ _).symm

/-- An input for text, of one word that stands for others. -/
def Html.textInput (value : String) : Sentence := (Sentence.empty lexicon .firstLevel).append space "textInput" [.str value]

/-- Whether there is one property among the words of an output, and it is as typed. -/
def Rendered.isTyped (r : Rendered) (σ : Stage World) : Bool :=
  match (r.words σ.instances Host.root).filter (fun word => (Engine.html.property? word).isSome) with
  | [⟨n, ⟨space, name, [.str property, .str value]⟩⟩] =>
      Engine.html.property? ⟨n, ⟨space, name, [.str property, .str value]⟩⟩ = some (⟨1⟩, "value") ∧ n = ⟨1⟩ ∧
        property = "value" ∧ value = "saved" ∧ σ.host.property? ⟨1⟩ "value" = some (.str "typed")
  | _ => false

set_option maxRecDepth 100000 in
/-- Under a word with the arguments that it had, what was typed stays. -/
theorem inputs_stale : ∃ r σ₁ r' σ₂,
    Engine.html.render (Script.behaviour .html) Host.root (Html.textInput "saved") ⟨.new, #[], World.new⟩ = .ok r σ₁ ∧
    Engine.html.diff (Script.behaviour .html) Host.root (Html.textInput "saved") r
      (σ₁.onHost (·.setProperty ⟨1⟩ "value" (.str "typed"))) = .ok r' σ₂ ∧
    Engine.html.config.liveProperties = true ∧ Proper .html σ₂.instances Host.root r'.sentence.lexems r'.slots ∧
    ∃ word ∈ r'.words σ₂.instances Host.root, Engine.html.property? word = some (⟨1⟩, "value") ∧
      word.2.scalarArg 1 = .ok (.str "saved") ∧ σ₂.host.property? ⟨1⟩ "value" = some (.str "typed") ∧
      ¬ σ₂.host.Shows word := by
  have hcheck : Pass.check (Engine.html.render (Script.behaviour .html) Host.root (Html.textInput "saved"))
      ⟨.new, #[], World.new⟩ (fun r σ₁ =>
        Pass.check (Engine.html.diff (Script.behaviour .html) Host.root (Html.textInput "saved") r)
          (σ₁.onHost (·.setProperty ⟨1⟩ "value" (.str "typed"))) fun r' σ₂ => r'.isTyped σ₂) = true := by decide +kernel
  obtain ⟨r, σ₁, hrender, hcheck⟩ := exists_of_check hcheck
  obtain ⟨r', σ₂, hdiff, hcheck⟩ := exists_of_check hcheck
  unfold Rendered.isTyped at hcheck
  split at hcheck
  next n space name property value hwords =>
    obtain ⟨hproperty, rfl, rfl, rfl, htyped⟩ := of_decide_eq_true hcheck
    have hword := List.mem_filter.mp (hwords ▸ List.mem_singleton_self _)
    have honly : ∀ word ∈ r'.words σ₂.instances Host.root, ∀ k, Engine.html.property? word = some k →
        word = (⟨1⟩, ⟨space, name, [.str "value", .str "saved"]⟩) := fun word hmem k hk =>
      List.mem_singleton.mp (hwords ▸ List.mem_filter.mpr ⟨hmem, by rw [hk]; rfl⟩)
    refine ⟨r, σ₁, r', σ₂, hrender, hdiff, rfl, ⟨?_, ?_⟩, _, hword.1, hproperty, rfl, htyped, ?_⟩
    · have honce : Engine.html.propertiesIn σ₂.instances Host.root r'.sentence.lexems r'.slots = [(⟨1⟩, "value")] := by
        have hnone : ∀ word, (if (Engine.html.property? word).isSome = true then Engine.html.property? word else none) =
            Engine.html.property? word := fun word => by cases Engine.html.property? word <;> rfl
        rw [Engine.propertiesIn, ← Rendered.words_eq, ← funext hnone, ← List.filterMap_filter, hwords]
        simp [hproperty]
      simp [honce]
    · intro word hmem k hk value hvalue
      rw [← Rendered.words_eq] at hmem
      rw [honly word hmem k hk] at hvalue
      cases hvalue
      decide
    · rintro ⟨_, _, ⟨⟩, ⟨⟩, hshown⟩
      rw [htyped] at hshown
      exact absurd hshown (by decide)
  next => cases hcheck
end Parlance
