import Parlance.Proofs.Engine.Guarding

/-! Every pass stays within what a warden allows, function by function. Rendering only puts nodes; for a removal, and so
for a diff, nodes may also be taken off the parents that they belong to. -/

namespace Parlance

open Pass Warden

set_option linter.unusedSectionVars false

variable {ω : Type} {b : Behaviour ω} {W : Warden} {errs : Prop}

namespace Warden.Drops

variable {h h₁ : Host} {p n : NodeId} (hdrops : W.Drops)
include hdrops

theorem one (hsound : W.sound h) (hp : p.index < h.count) (hown : W.owns h p n) : W.turns h (h.removeChild p n) :=
  hdrops hsound hp hown (.one n h)

/-- A node is taken away after something else has happened. -/
theorem after (hsound : W.sound h) (hp : p.index < h.count) (hown : W.owns h p n) (hturns : W.turns h h₁) :
    W.turns h (h₁.removeChild p n) :=
  W.trans hturns (hdrops.one (W.keeps hsound hturns) (Nat.lt_of_lt_of_le hp (W.count hturns)) (W.later hturns hown))

theorem all {ns : List NodeId} (hsound : W.sound h) (hp : p.index < h.count) (hns : ∀ n ∈ ns, W.owns h p n) :
    W.turns h (ns.foldl (fun h n => h.removeChild p n) h) := by
  induction ns generalizing h with
  | nil => exact W.refl h
  | cons n ns ih =>
      have hturns := hdrops.one hsound hp (hns n List.mem_cons_self)
      exact W.trans hturns (ih (W.keeps hsound hturns) (Nat.lt_of_lt_of_le hp (W.count hturns)) fun n hn =>
        W.later hturns (hns n (List.mem_cons_of_mem _ hn)))

end Warden.Drops

section Detaching

variable (hdrops : W.Drops) {within : InstanceId → Host → Host} {t : Array Instance}
variable (hwithin : ∀ id h, W.sound h → W.Tidy h t → W.first ≤ id.index → W.turns h (within id h))
include hdrops hwithin

mutual

theorem Slot.detach_turns (p : NodeId) (lexem : Lexem) (h : Host) (hsound : W.sound h) (ht : W.Tidy h t)
    (hp : p.index < h.count) : ∀ slot : Slot, W.Own h p [slot] → W.turns h (slot.detach within p lexem h)
  | .attribute, _ => inscribes hsound hp (Lexem.clear_inscribes _ _ h)
  | .element node kids, hown => hdrops.one hsound hp (hown.nodes node (by simp [Slot.mark, Mark.tops]))
  | .text node, hown => hdrops.one hsound hp (hown.nodes node (by simp [Slot.mark, Mark.tops, Slot.ends]))
  | .listener id, _ => removeListener hsound hp _ id
  | .branch witness developed, hown => by
      refine hdrops.after hsound hp (hown.nodes witness (by simp [Slot.mark, Mark.tops, Slot.ends])) ?_
      exact detachOption_turns p h hsound ht hp developed fun r hr => hown.parts r (by simpa [Slot.parts] using hr)
  | .each witness items, hown => by
      refine hdrops.after hsound hp (hown.nodes witness (by simp [Slot.mark, Mark.tops, Slot.ends])) ?_
      exact detachAll_turns p h hsound ht hp items fun r hr => hown.parts r (by simpa [Slot.parts] using hr)
  | .raw witness nodes, hown => by
      refine hdrops.after hsound hp (hown.nodes witness (by simp [Slot.mark, Mark.tops, Slot.ends])) ?_
      exact hdrops.all hsound hp fun n hn => hown.nodes n (by simp [Slot.mark, Mark.tops, Slot.ends, hn])
  | .component id, hown => hwithin id h hsound ht hown.component
  | .compound developed, hown =>
      detachWith_turns p h hsound ht hp developed (hown.parts developed (by simp [Slot.parts]))
  | .skipped, _ => W.refl h
  | .effect, _ => W.refl h
  | .hook _, _ => W.refl h

theorem detachWith_turns (p : NodeId) (h : Host) (hsound : W.sound h) (ht : W.Tidy h t) (hp : p.index < h.count) :
    ∀ r : Rendered, W.Own h p r.slots → W.turns h (r.detachWith within p h)
  | ⟨_, sentence, slots⟩, hown => detachSlots_turns p h hsound ht hp sentence.lexems slots hown

theorem detachSlots_turns (p : NodeId) (h : Host) (hsound : W.sound h) (ht : W.Tidy h t) (hp : p.index < h.count) :
    ∀ (lexems : List Lexem) (slots : List Slot), W.Own h p slots → W.turns h (detachSlots within p h lexems slots)
  | lexem :: lexems, slot :: slots, hown => by
      have hfirst := Slot.detach_turns p lexem h hsound ht hp slot hown.first.1
      exact W.trans hfirst (detachSlots_turns p _ (W.keeps hsound hfirst) (ht.later hfirst)
        (Nat.lt_of_lt_of_le hp (W.count hfirst)) lexems slots (hown.first.2.later hfirst))
  | [], _, _ => by
      simp only [detachSlots]
      exact W.refl h
  | _ :: _, [], _ => by
      simp only [detachSlots]
      exact W.refl h

theorem detachAll_turns (p : NodeId) (h : Host) (hsound : W.sound h) (ht : W.Tidy h t) (hp : p.index < h.count) :
    ∀ rs : List Rendered, (∀ r ∈ rs, W.Own h p r.slots) → W.turns h (detachAll within p h rs)
  | [], _ => W.refl h
  | r :: rs, hown => by
      have hfirst := detachWith_turns p h hsound ht hp r (hown r List.mem_cons_self)
      exact W.trans hfirst (detachAll_turns p _ (W.keeps hsound hfirst) (ht.later hfirst)
        (Nat.lt_of_lt_of_le hp (W.count hfirst)) rs fun r hr => (hown r (List.mem_cons_of_mem _ hr)).later hfirst)

theorem detachOption_turns (p : NodeId) (h : Host) (hsound : W.sound h) (ht : W.Tidy h t) (hp : p.index < h.count) :
    ∀ developed : Option Rendered, (∀ r ∈ developed, W.Own h p r.slots) →
      W.turns h (detachOption within p h developed)
  | none, _ => W.refl h
  | some r, hown => detachWith_turns p h hsound ht hp r (hown r rfl)

end

end Detaching

theorem detachComponent_turns (hdrops : W.Drops) {t : Array Instance} (depth : Nat) :
    ∀ (id : InstanceId) (h : Host), W.sound h → W.Tidy h t → W.first ≤ id.index →
      W.turns h (detachComponent t depth id h) := by
  induction depth with
  | zero => exact fun _ h _ _ _ => W.refl h
  | succ depth ih =>
      intro id h hsound ht hlate
      rw [detachComponent]
      cases hi : t[id.index]? with
      | none => exact W.refl h
      | some i =>
          have hown := ht.own id i hlate hi
          dsimp only
          cases hr : i.developed with
          | none =>
              cases hw : i.witness with
              | none => exact W.refl h
              | some w => exact hdrops.after hsound hown.site (hown.witness w hw) (W.refl h)
          | some r =>
              have houtput := detachWith_turns hdrops ih i.parent h hsound ht hown.site r (hown.output r hr)
              cases hw : i.witness with
              | none => exact houtput
              | some w => exact hdrops.after hsound hown.site (hown.witness w hw) houtput

section Seeking

variable (hhooks : W.Hooks b) {within : InstanceId → Pass ω (List InstanceId)} {σ₀ : Stage ω}
variable (hwithin : ∀ id, W.Guards errs σ₀ (within id) fun _ _ => True)
include hhooks hwithin

mutual

theorem Slot.seek_guards (lexem : Lexem) :
    ∀ slot : Slot, W.Guards errs σ₀ (slot.seek b within lexem) fun _ _ => True
  | .element _ children => seekAll_guards children
  | .branch _ developed => seekOption_guards developed
  | .each _ items => seekAll_guards items
  | .hook node => by
      rw [Slot.seek]
      split
      · exact .seq (.actOnHost hhooks .remove) fun _ _ => .pure fun _ _ => trivial
      · exact .pure fun _ _ => trivial
  | .component id => hwithin id
  | .compound developed => seekWith_guards developed
  | .attribute => .pure fun _ _ => trivial
  | .text _ => .pure fun _ _ => trivial
  | .listener _ => .pure fun _ _ => trivial
  | .raw _ _ => .pure fun _ _ => trivial
  | .skipped => .pure fun _ _ => trivial
  | .effect => .pure fun _ _ => trivial

theorem seekWith_guards : ∀ r : Rendered, W.Guards errs σ₀ (r.seekWith b within) fun _ _ => True
  | ⟨_, sentence, slots⟩ => seekSlots_guards sentence.lexems slots

theorem seekSlots_guards : ∀ (lexems : List Lexem) (slots : List Slot),
    W.Guards errs σ₀ (seekSlots b within lexems slots) fun _ _ => True
  | lexem :: lexems, slot :: slots =>
      .seq (Slot.seek_guards lexem slot) fun _ _ => .seq (seekSlots_guards lexems slots) fun _ _ =>
        .pure fun _ _ => trivial
  | [], _ => by
      simp only [seekSlots]
      exact .pure fun _ _ => trivial
  | _ :: _, [] => by
      simp only [seekSlots]
      exact .pure fun _ _ => trivial

theorem seekAll_guards : ∀ rs : List Rendered, W.Guards errs σ₀ (seekAll b within rs) fun _ _ => True
  | [] => .pure fun _ _ => trivial
  | r :: rs => .seq (seekWith_guards r) fun _ _ => .seq (seekAll_guards rs) fun _ _ => .pure fun _ _ => trivial

theorem seekOption_guards :
    ∀ developed : Option Rendered, W.Guards errs σ₀ (seekOption b within developed) fun _ _ => True
  | none => .pure fun _ _ => trivial
  | some r => seekWith_guards r

end

end Seeking

section Removing

variable (hdrops : W.Drops) (hhooks : W.Hooks b) {σ₀ : Stage ω} {p : NodeId}
include hhooks

theorem seekComponent_guards (depth : Nat) (id : InstanceId) :
    W.Guards errs σ₀ (seekComponent b depth id) fun _ _ => True := by
  induction depth generalizing id with
  | zero => exact .pure fun _ _ => trivial
  | succ depth ih =>
      refine .bind .instances fun t σ₁ honward _ => ?_
      split
      · exact .pure fun _ _ => trivial
      · split
        · exact .seq (seekWith_guards hhooks (fun id => (ih id).onward honward) _) fun _ _ => .pure fun _ _ => trivial
        · exact .pure fun _ _ => trivial

omit hhooks in
theorem unmounting_guards {found : List InstanceId} {detach : Array Instance → Host → Host}
    (hdetach : ∀ (σ : Stage ω) t, W.Onward σ₀ σ → W.sound σ.host → W.Tidy σ.host t →
      W.turns σ.host (detach t σ.host)) : W.Guards errs σ₀ (unmounting b found detach) fun _ _ => True := by
  refine .seq (.forM fun id _ => .act) fun _ _ => .bind .instances fun t σ₁ honward ht => ?_
  refine .seq (.edit fun σ hσ hsound => hdetach σ t (honward.trans hσ) hsound (ht.2.later hσ.host)) fun _ _ => ?_
  refine .forM fun id _ => .seq .act fun _ _ => .editInstance id (fun _ => rfl) fun σ i _ _ hi => ?_
  exact ⟨hi.site, hi.witness, nofun⟩

include hdrops

/-- Removing an output never ends in an error. -/
theorem teardown_guards (hp : p.index < σ₀.host.count) {r : Rendered} (hown : W.Own σ₀.host p r.slots) :
    W.Guards errs σ₀ (teardown b p r) fun _ _ => True := by
  refine .bind .instances fun t σ₁ honward _ => ?_
  refine .seq (seekWith_guards hhooks (seekComponent_guards hhooks _) r) fun found _ => unmounting_guards ?_
  exact fun σ t hσ hsound ht => detachWith_turns hdrops (detachComponent_turns hdrops _) p σ.host hsound ht
    ((honward.trans hσ).count hp) r (hown.onward (honward.trans hσ))

theorem teardownSlot_guards (hp : p.index < σ₀.host.count) (lexem : Lexem) {slot : Slot} (hown : W.Own σ₀.host p [slot]) :
    W.Guards errs σ₀ (teardownSlot b p lexem slot) fun _ _ => True := by
  refine .bind .instances fun t σ₁ honward _ => ?_
  refine .seq (Slot.seek_guards hhooks (seekComponent_guards hhooks _) lexem slot) fun _ _ => unmounting_guards ?_
  exact fun σ t hσ hsound ht => Slot.detach_turns hdrops (detachComponent_turns hdrops _) p lexem σ.host hsound ht
    ((honward.trans hσ).count hp) slot (hown.onward (honward.trans hσ))

theorem teardowns_guards (hp : p.index < σ₀.host.count) {rs : List Rendered} (hrs : ∀ r ∈ rs, W.Own σ₀.host p r.slots) :
    W.Guards errs σ₀ (rs.forM (teardown b p)) fun _ _ => True :=
  .forM fun r hr => teardown_guards hdrops hhooks hp (hrs r hr)

end Removing

/-- Whether a diff may put nodes or take nodes away for an instruction. -/
def Instruction.nests : Instruction → Bool
  | .tag | .ifElse | .switchUse | .each | .html | .component => true
  | _ => false

namespace Engine

section Phrases

variable (e : Engine) (lexem : Lexem) {σ₀ : Stage ω}

theorem develop_guards : W.Guards True σ₀ (e.develop b lexem) fun _ _ => True := by
  unfold develop
  split
  · exact .fail _
  · exact .attempt

theorem chosenPhrase_guards : W.Guards True σ₀ (chosenPhrase b lexem) fun _ _ => True := by
  unfold chosenPhrase
  dsimp only
  split
  · exact .pure fun _ _ => trivial
  · exact .pure fun _ _ => trivial
  · exact .seq .act fun _ _ => .pure fun _ _ => trivial
  · exact (Guards.ofExcept _).weaken fun _ _ _ => trivial

theorem switchedPhrase_guards : W.Guards True σ₀ (e.switchedPhrase b lexem) fun _ _ => True := by
  unfold switchedPhrase
  split
  · exact .pure fun _ _ => trivial
  · exact .pure fun _ _ => trivial
  · split
    · exact .fail _
    · exact .seq .attempt fun _ _ => .pure fun _ _ => trivial
  · exact (Guards.ofExcept _).weaken fun _ _ _ => trivial

theorem eachPhrases_guards : W.Guards True σ₀ (eachPhrases b lexem) fun _ _ => True := by
  unfold eachPhrases
  dsimp only
  split
  all_goals
    refine .seq (q := fun _ => True) ?_ fun items _ => ?_
    rotate_left
    · split
      · exact .act
      · exact (Guards.ofExcept _).weaken fun _ _ _ => trivial
  · exact .pure fun _ _ => trivial
  · exact .pure fun _ _ => trivial
  · exact (Guards.ofExcept _).weaken fun _ _ _ => trivial

theorem runCallback_guards : W.Guards True σ₀ (runCallback b lexem) fun _ _ => True :=
  .seq (Guards.ofExcept _) fun _ _ => .act

theorem nameNode_guards (c : Cursor) : W.Guards True σ₀ (nameNode c lexem : Pass ω Unit) fun _ _ => True := by
  unfold nameNode
  split
  · exact .pure fun _ _ => trivial
  · exact .seq (Guards.ofExcept _) fun _ _ => .editInstance _ (fun _ => rfl) fun σ i _ _ hi =>
      ⟨hi.site, hi.witness, hi.output⟩

/-- Whatever only changes what a node shows may be done to a node of the host. -/
theorem inscribe_guards {f : Host → Host} {n : NodeId} (hn : n.index < σ₀.host.count)
    (hf : ∀ h, Host.Inscribes n h (f h)) : W.Guards errs σ₀ (Pass.edit f : Pass ω Unit) fun _ _ => True :=
  .edit fun σ hσ hsound => inscribes hsound (hσ.count hn) (hf σ.host)

end Phrases

/-- Rendering as deep as one likes puts what may be taken away again. -/
def RenderGuards (W : Warden) (render : Cursor → Phrase → Pass ω Rendered) : Prop :=
  ∀ (σ₀ : Stage ω) c phrase, c.Within σ₀.host →
    W.Guards True σ₀ (render c phrase) fun r σ => W.Own σ.host c.parent r.slots

/-- So does a diff, with what may be taken away. -/
def DiffGuards (W : Warden) (diff : Engine → Cursor → Phrase → Rendered → Pass ω Rendered) : Prop :=
  ∀ (σ₀ : Stage ω) e c phrase previous, c.Within σ₀.host → W.Own σ₀.host c.parent previous.slots →
    W.Guards True σ₀ (diff e c phrase previous) fun r σ => W.Own σ.host c.parent r.slots

section Rendering

variable (hhooks : W.Hooks b) {render : Cursor → Phrase → Pass ω Rendered} (hrender : RenderGuards W render)
variable (e : Engine) (lexem : Lexem) {c : Cursor} {σ₀ : Stage ω} (hc : c.Within σ₀.host)

include hrender hc in
theorem renderTag_guards : W.Guards True σ₀ (renderTag render e c lexem) fun slot σ => W.Own σ.host c.parent [slot] := by
  refine .seq (.ofExcept _) fun tag _ => ?_
  refine .bind (.make (q := fun n h => W.owns h c.parent n) fun σ hσ hsound => (hc.onward hσ).puts hsound _ rfl)
    fun node σ₁ _ hnode => ?_
  refine .bind (.mapM (S := fun r σ => W.Own σ.host node r.slots) (fun honward hr => Own.onward hr honward) fun child _ =>
    .seq (.ofExcept _) fun phrase _ => hrender _ _ phrase (.inside (W.inside hnode))) fun kids σ₂ h₂ hkids =>
    .pure fun σ hσ => .part nofun (fun n hn => ?_) fun r hr => (hkids r hr).onward hσ
  obtain rfl : n = node := by simpa [Slot.mark, Mark.tops] using hn
  exact W.later (h₂.trans hσ).host hnode

include hrender hc in
theorem renderBranch_guards (label : String) (chosen : Option Phrase) :
    W.Guards True σ₀ (renderBranch render e c label chosen) fun slot σ => W.Own σ.host c.parent [slot] := by
  have hrest : ∀ (developed : Option Rendered) (σ₁ : Stage ω), W.Onward σ₀ σ₁ →
      (∀ r ∈ developed, W.Own σ₁.host c.parent r.slots) → W.Guards True σ₁ (do
        pure (.branch (← Pass.witness e c label) developed) : Pass ω Slot) fun slot σ => W.Own σ.host c.parent [slot] := by
    refine fun developed σ₁ h₁ hdeveloped => .bind ((hc.onward h₁).witness e label) fun w σ₂ h₂ hw =>
      .pure fun σ hσ => .part nofun (fun n hn => ?_) fun r hr => ?_
    · obtain rfl : n = w := by simpa [Slot.mark, Mark.tops, Slot.ends] using hn
      exact W.later hσ.host hw
    · exact (hdeveloped r (by simpa [Slot.parts] using hr)).onward (h₂.trans hσ)
  unfold renderBranch
  cases chosen with
  | none => exact hrest none σ₀ (.refl σ₀) nofun
  | some phrase =>
      exact .bind (hrender _ _ phrase hc) fun r σ₁ h₁ hr => hrest (some r) σ₁ h₁ (by rintro _ ⟨⟩; exact hr)

include hrender hc in
theorem mount_guards (factory : Factory) (props : Arg) :
    W.Guards True σ₀ (mount b render e c factory props) fun slot σ => W.Own σ.host c.parent [slot] := by
  intro σ hσ hsafe
  obtain ⟨id, hid⟩ : ∃ id : InstanceId, id = ⟨σ.instances.size⟩ := ⟨_, rfl⟩
  have hlate : W.first ≤ id.index := by rw [hid]; exact hsafe.table.size
  obtain ⟨rest, hrest⟩ : ∃ rest : Pass ω Slot, rest = (do
      Pass.act (b.lifecycle id .willMount)
      let s ← Pass.act (b.view id)
      let developed ← render { c with component := some id } (.new s)
      let witness ← Pass.witness e c "component"
      Pass.editInstance id fun i => { i with developed := some developed, witness := some witness }
      Pass.act (b.lifecycle id .didMount)
      pure (.component id)) := ⟨_, rfl⟩
  have hmount : mount b render e c factory props σ = (Pass.act (b.create factory id props) >>= fun _ =>
      modify (fun stage : Stage ω => { stage with
        instances := stage.instances.push ⟨factory, e, c.parent, none, none, []⟩ }) >>= fun _ => rest) σ := by
    rw [hrest, hid]
    rfl
  -- from the moment that it is made, the component stands in the table under the parent at the cursor
  have hguards : ∀ σ₁ : Stage ω, W.Onward σ σ₁ → (∃ i, σ₁.instances[id.index]? = some i ∧ i.parent = c.parent) →
      W.Guards True σ₁ rest fun slot σ => W.Own σ.host c.parent [slot] := by
    rintro σ₁ h₁ ⟨i, hi, hparent⟩
    have hc₁ := hc.onward (hσ.trans h₁)
    rw [hrest]
    refine .seq .act fun _ _ => .seq .act fun s _ => .bind (hrender σ₁ _ _ ⟨hc₁.parent, hc₁.anchor⟩) fun r σ₂ h₂ hr => ?_
    refine .bind ((hc₁.onward h₂).witness e _) fun w σ₃ h₃ hw => ?_
    refine .seq (.editInstance id (fun _ => rfl) fun σ' j h' hj hown => ⟨hown.site, ?_, ?_⟩) fun _ _ => .seq .act fun _ _ =>
      .pure fun _ _ => .of_late hlate
    all_goals
      obtain ⟨j', hj', hsame⟩ := ((h₂.trans h₃).trans h').table id i hi
      obtain rfl : j = j' := Option.some.inj (hj.symm.trans hj')
      have hjparent : j.parent = c.parent := hsame.trans hparent
      dsimp only
      rw [hjparent]
    · rintro n ⟨⟩
      exact W.later h'.host hw
    · rintro r' ⟨⟩
      exact hr.onward (h₃.trans h')
  rw [hmount]
  simp only [bind, EStateM.bind, Pass.act, modify, modifyGet, MonadStateOf.modifyGet]
  delta EStateM.modifyGet
  cases b.create factory id props σ.world with
  | error t w => trivial
  | ok _ w =>
      dsimp only
      have hmade : W.Onward σ ⟨σ.host, σ.instances.push ⟨factory, e, c.parent, none, none, []⟩, w⟩ := by
        refine ⟨W.refl _, fun id' i hi => ⟨i, ?_, rfl⟩⟩
        rw [Array.getElem?_push, if_neg (Nat.ne_of_lt (Array.getElem?_eq_some_iff.mp hi).1), hi]
      have hafter := hguards _ hmade ⟨_, by rw [hid, Array.getElem?_push_size], rfl⟩ _ (.refl _)
        ⟨hsafe.host, hsafe.table.push ⟨(hc.onward hσ).parent, (by simp), (by simp)⟩⟩
      split at hafter
      · exact ⟨hmade.trans hafter.1, hafter.2⟩
      · exact ⟨trivial, hmade.trans hafter.2.1, hafter.2.2⟩
      · trivial

include hhooks hrender hc in
theorem renderInstruction_guards (i : Instruction) :
    W.Guards True σ₀ (renderInstruction b render e c lexem i) fun slot σ => W.Own σ.host c.parent [slot] := by
  have hattribute : ∀ σ : Stage ω, W.Onward σ₀ σ → W.Own σ.host c.parent [.attribute] := fun _ _ => .bare (by simp) rfl rfl
  have heffect : ∀ σ : Stage ω, W.Onward σ₀ σ → W.Own σ.host c.parent [.effect] := fun _ _ => .bare (by simp) rfl rfl
  have hshow {f : Host → Host} (hf : ∀ h, Host.Inscribes c.parent h (f h)) :
      W.Guards True σ₀ (Pass.edit f : Pass ω Unit) fun _ _ => True := inscribe_guards hc.parent hf
  cases i with
  | tag => exact renderTag_guards hrender e lexem hc
  | text =>
      unfold renderInstruction
      refine .make (q := fun slot h => W.Own h c.parent [slot]) fun σ hσ hsound => ?_
      obtain ⟨hturns, hown⟩ := (hc.onward hσ).puts hsound (.text (lexem.arg 0).toText)
        (show (Mutation.createText σ.host.next (lexem.arg 0).toText).made? = _ from rfl)
      refine ⟨hturns, .part (by simp) (fun n hn => ?_) (by simp [Slot.parts])⟩
      obtain rfl : n = σ.host.next := by simpa [Slot.mark, Mark.tops, Slot.ends, Host.createText] using hn
      exact hown
  | attr | data | style =>
      exact .seq (.ofExcept _) fun _ _ => .seq (hshow fun h => .entry h _ _ _ rfl) fun _ _ => .pure hattribute
  | prop =>
      exact .seq (.ofExcept _) fun _ _ => .seq (.ofExcept _) fun _ _ =>
        .seq (hshow fun h => .entry h _ _ _ rfl) fun _ _ => .pure hattribute
  | cssClass =>
      unfold renderInstruction
      dsimp only
      split
      · exact .seq (hshow fun h => .entry h _ _ _ rfl) fun _ _ => .pure hattribute
      · exact .pure hattribute
  | classes =>
      exact .seq (hshow fun h => .foldl (fun h _ => .entry h _ _ _ rfl) h _) fun _ _ => .pure hattribute
  | id => exact .seq (hshow fun h => .entry h _ _ _ rfl) fun _ _ => .pure hattribute
  | on =>
      refine .seq (.ofExcept _) fun event _ => .seq (.ofExcept _) fun listener _ => ?_
      refine .seq (q := fun _ => True) (.make (q := fun _ _ => True) fun σ hσ hsound => ?_) fun id _ =>
        .pure fun _ _ => .bare (by simp) rfl rfl
      exact ⟨addListener hsound (hσ.count hc.parent) event listener, trivial⟩
  | ifElse => exact .seq (chosenPhrase_guards lexem) fun _ _ => renderBranch_guards hrender e hc _ _
  | switchUse => exact .seq (switchedPhrase_guards e lexem) fun _ _ => renderBranch_guards hrender e hc _ _
  | each =>
      refine .seq (eachPhrases_guards lexem) fun phrases _ => .bind (.mapM (S := fun r σ => W.Own σ.host c.parent r.slots)
        (fun honward hr => Own.onward hr honward) fun phrase _ => hrender _ c phrase hc) fun items σ₁ h₁ hitems => ?_
      refine .bind ((hc.onward h₁).witness e _) fun w σ₂ h₂ hw => .pure fun σ hσ => .part (by simp) (fun n hn => ?_)
        fun r hr => Own.onward (hitems r hr) (h₂.trans hσ)
      obtain rfl : n = w := by simpa [Slot.mark, Mark.tops, Slot.ends] using hn
      exact W.later hσ.host hw
  | html =>
      refine .bind (.make (q := fun nodes h => ∀ n ∈ nodes, W.owns h c.parent n) fun σ hσ hsound => ?_)
        fun nodes σ₁ h₁ hnodes => ?_
      · obtain ⟨hturns, hown⟩ := W.adds hsound (hσ.count hc.parent) (hc.onward hσ).anchor
          (Host.insertRaw_adds (lexem.arg 0).toText (hσ.count hc.parent))
        exact ⟨hturns, by simpa [Host.insertRaw] using hown⟩
      · refine .bind ((hc.onward h₁).witness e _) fun w σ₂ h₂ hw =>
          .pure fun σ hσ => .part (by simp) (fun n hn => ?_) (by simp [Slot.parts])
        rcases List.mem_append.mp hn with hn | hn
        · exact W.later (h₂.trans hσ).host (hnodes n hn)
        · exact List.mem_singleton.mp hn ▸ W.later hσ.host hw
  | onDom =>
      exact .seq (.ofExcept _) fun _ _ => .seq (.actOnHost hhooks .render) fun _ _ => .pure fun _ _ =>
        .bare (by simp) rfl rfl
  | execute => exact .seq (runCallback_guards lexem) fun _ _ => .pure heffect
  | ref => exact .seq (nameNode_guards lexem c) fun _ _ => .pure heffect
  | component => exact .seq (.ofExcept _) fun _ _ => mount_guards hrender e hc _ _

include hhooks hrender hc in
theorem renderPhrase_guards (phrase : Phrase) :
    W.Guards True σ₀ (renderPhrase b render e c phrase) fun r σ => W.Own σ.host c.parent r.slots := by
  have hlexem : ∀ lexem : Lexem, W.Guards True σ₀ (renderLexem b render e c lexem) fun slot σ =>
      W.Own σ.host c.parent [slot] := by
    intro lexem
    unfold renderLexem
    split
    · split
      · exact renderInstruction_guards hhooks hrender e lexem hc _
      · exact .seq (develop_guards e lexem) fun s _ => .bind (hrender _ c _ hc) fun r σ₁ _ hr =>
          .pure fun σ hσ => .part (by simp) (by simp [Slot.mark, Mark.tops, Slot.ends])
            (by simpa [Slot.parts, Slot.inside] using Own.onward hr hσ)
    · exact .pure fun _ _ => .bare (by simp) rfl rfl
  refine .bind (.mapM (S := fun slot σ => W.Own σ.host c.parent [slot]) (fun honward hslot => Own.onward hslot honward)
    fun lexem _ => hlexem lexem) fun slots σ₁ _ hslots => .pure fun σ hσ => ?_
  change W.Own σ.host c.parent slots
  induction slots with
  | nil => exact .nil
  | cons slot slots ih =>
      exact (Own.onward (hslots slot List.mem_cons_self) hσ).append
        (ih fun slot hslot => hslots slot (List.mem_cons_of_mem _ hslot))

end Rendering

/-- Rendering puts what may be taken away again, wherever it fails. -/
theorem renderWithin_guards (hhooks : W.Hooks b) (depth : Nat) (e : Engine) : RenderGuards W (renderWithin b depth e) := by
  induction depth with
  | zero => exact fun _ _ _ _ _ _ _ => trivial
  | succ depth ih => exact fun _ _ phrase hc => renderPhrase_guards hhooks ih e hc phrase

section Diffing

variable (hdrops : W.Drops) (hhooks : W.Hooks b) {render : Cursor → Phrase → Pass ω Rendered}
variable {diff : Engine → Cursor → Phrase → Rendered → Pass ω Rendered}
variable (hrender : RenderGuards W render) (hdiff : DiffGuards W diff)
variable (e : Engine) (lexem old : Lexem) {c : Cursor} {σ₀ : Stage ω} (hc : c.Within σ₀.host)

/-- What matching one by one gives back: what is kept or new, and what is left over. -/
def Matched (W : Warden) (p : NodeId) (result : List Rendered × List Rendered) (σ : Stage ω) : Prop :=
  (∀ r ∈ result.1, W.Own σ.host p r.slots) ∧ ∀ r ∈ result.2, W.Own σ.host p r.slots

theorem Matched.onward {p : NodeId} {result : List Rendered × List Rendered} {σ σ' : Stage ω}
    (h : Matched W p result σ) (honward : W.Onward σ σ') : Matched W p result σ' :=
  ⟨fun r hr => (h.1 r hr).onward honward, fun r hr => (h.2 r hr).onward honward⟩

theorem Matched.cons {p : NodeId} {r : Rendered} {result : List Rendered × List Rendered} {σ : Stage ω}
    (hr : W.Own σ.host p r.slots) (h : Matched W p result σ) : Matched W p (r :: result.1, result.2) σ :=
  ⟨by simpa using ⟨hr, h.1⟩, h.2⟩

/-- One output after another, each followed by the rest of the list. -/
theorem matched_guards {p : NodeId} {m : Pass ω Rendered} {rest : Pass ω (List Rendered × List Rendered)}
    (hm : W.Guards True σ₀ m fun r σ => W.Own σ.host p r.slots) (hrest : W.Guards True σ₀ rest (Matched W p)) :
    W.Guards True σ₀ (do
      let r ← m
      let (rs, rest) ← rest
      pure (r :: rs, rest)) (Matched W p) :=
  .bind hm fun _ _ h₁ hr => .bind (hrest.onward h₁) fun _ _ h₂ hrs => .pure fun _ hσ =>
    .cons (hr.onward (h₂.trans hσ)) (hrs.onward hσ)

include hrender hdiff in
theorem diffItems_guards (phrases : List Phrase) :
    ∀ {σ₀ : Stage ω} (olds : List Rendered), c.Within σ₀.host → (∀ r ∈ olds, W.Own σ₀.host c.parent r.slots) →
      W.Guards True σ₀ (diffItems render diff e c phrases olds) (Matched W c.parent) := by
  induction phrases with
  | nil => exact fun olds _ holds => .pure fun σ hσ => ⟨by simp, fun r hr => (holds r hr).onward hσ⟩
  | cons phrase phrases ih =>
      intro σ₀ olds hc holds
      cases olds with
      | nil => exact matched_guards (hrender _ c phrase hc) (ih [] hc (by simp))
      | cons previous olds =>
          exact matched_guards (hdiff _ e c phrase previous hc (holds _ List.mem_cons_self))
            (ih olds hc fun r hr => holds r (List.mem_cons_of_mem _ hr))

include hrender hdiff in
theorem diffChildren_guards (children : List Arg) :
    ∀ {σ₀ : Stage ω} (oldChildren : List Arg) (olds : List Rendered), c.Within σ₀.host →
      (∀ r ∈ olds, W.Own σ₀.host c.parent r.slots) →
      W.Guards True σ₀ (diffChildren render diff e c lexem children oldChildren olds) (Matched W c.parent) := by
  induction children with
  | nil => exact fun _ olds _ holds => .pure fun σ hσ => ⟨by simp, fun r hr => (holds r hr).onward hσ⟩
  | cons child children ih =>
      intro σ₀ oldChildren olds hc holds
      cases olds with
      | nil =>
          exact .seq (.ofExcept _) fun phrase _ => matched_guards (hrender _ c phrase hc) (ih [] [] hc (by simp))
      | cons previous olds =>
          have hprevious := holds previous List.mem_cons_self
          have hrest := ih oldChildren.tail olds hc fun r hr => holds r (List.mem_cons_of_mem _ hr)
          unfold diffChildren
          split
          · exact matched_guards (.pure fun σ hσ => hprevious.onward hσ) hrest
          · exact .seq (.ofExcept _) fun phrase _ => matched_guards (hdiff _ e c phrase previous hc hprevious) hrest

include hdrops hhooks hrender hdiff hc in
theorem diffTag_guards {element : NodeId} {kids : List Rendered} (hown : W.Own σ₀.host c.parent [.element element kids]) :
    W.Guards True σ₀ (diffTag b render diff e c lexem old element kids) fun slot σ => W.Own σ.host c.parent [slot] := by
  have helement := W.inside (hown.nodes element (by simp [Slot.mark, Mark.tops]))
  refine .seq (.ofExcept _) fun tag _ => .seq (.ofExcept _) fun oldTag _ => ?_
  split
  · exact .bind (renderTag_guards hrender e lexem (hc.before helement)) fun slot σ₁ h₁ hslot =>
      .bind (teardownSlot_guards hdrops hhooks (h₁.count hc.parent) old (hown.onward h₁)) fun _ _ h₂ _ =>
        .pure fun _ hσ => Own.onward hslot (h₂.trans hσ)
  · refine .bind (diffChildren_guards hrender hdiff e lexem _ _ kids (.inside helement) hown.parts)
      fun result σ₁ h₁ hresult => ?_
    refine .bind (teardowns_guards hdrops hhooks (h₁.count helement) hresult.2) fun _ _ h₂ _ => .pure fun _ hσ => ?_
    exact .part nofun (fun n hn => W.later ((h₁.trans h₂).trans hσ).host (hown.nodes n hn)) fun r hr =>
      (hresult.1 r hr).onward (h₂.trans hσ)

include hdrops hhooks hrender hdiff hc in
theorem diffBranch_guards {witness : NodeId} {developed : Option Rendered} (chosen : Option Phrase) (replace : Bool)
    (hown : W.Own σ₀.host c.parent [.branch witness developed]) :
    W.Guards True σ₀ (diffBranch b render diff e c witness chosen developed replace) fun slot σ =>
      W.Own σ.host c.parent [slot] := by
  have hdeveloped : ∀ r ∈ developed, W.Own σ₀.host c.parent r.slots := fun r hr =>
    hown.parts r (by simpa [Slot.parts] using hr)
  have hwitness := hown.nodes witness (by simp [Slot.mark, Mark.tops, Slot.ends])
  have hbefore := hc.before (W.inside hwitness)
  have hlast : ∀ (developed : Option Rendered) (σ : Stage ω), W.Onward σ₀ σ →
      (∀ r ∈ developed, W.Own σ.host c.parent r.slots) → W.Own σ.host c.parent [.branch witness developed] :=
    fun developed σ hσ h => .part (by simp) (fun n hn => W.later hσ.host (hown.nodes n hn))
      (by simpa [Slot.parts, Slot.inside] using h)
  have hremove : W.Guards True σ₀ (developed.forM (teardown b c.parent)) fun _ _ => True := by
    cases developed with
    | none => exact .pure fun _ _ => trivial
    | some r => exact teardown_guards hdrops hhooks hc.parent (hdeveloped r rfl)
  have hcome : ∀ {σ₁ : Stage ω} {m : Pass ω Rendered}, W.Onward σ₀ σ₁ →
      W.Guards True σ₁ m (fun r σ => W.Own σ.host c.parent r.slots) →
      W.Guards True σ₁ (m >>= fun r => pure (some r) >>= fun developed => pure (.branch witness developed)) fun slot σ =>
        W.Own σ.host c.parent [slot] := by
    intro σ₁ m h₁ hm
    refine .bind hm fun r σ₂ h₂ hr => .pure fun σ hσ => hlast (some r) σ (h₁.trans (h₂.trans hσ)) fun r' hr' => ?_
    cases hr'
    exact Own.onward hr hσ
  unfold diffBranch
  cases chosen with
  | none => cases developed <;> exact .bind hremove fun _ _ h₁ _ => .pure fun σ hσ => hlast none σ (h₁.trans hσ) (by simp)
  | some phrase =>
      have hnew : W.Guards True σ₀ (developed.forM (teardown b c.parent) >>= fun _ =>
          render (c.before witness) phrase >>= fun r => pure (some r) >>= fun developed =>
            pure (.branch witness developed) : Pass ω Slot) fun slot σ => W.Own σ.host c.parent [slot] :=
        .bind hremove fun _ σ₁ h₁ _ => hcome h₁ (hrender σ₁ _ phrase (hbefore.onward h₁))
      cases developed with
      | none => exact hnew
      | some previous =>
          cases replace with
          | true => exact hnew
          | false => exact hcome (.refl σ₀) (hdiff σ₀ e (c.before witness) phrase previous hbefore (hdeveloped previous rfl))

include hdiff in
theorem update_guards {id : InstanceId} (hid : W.first ≤ id.index) :
    W.Guards True σ₀ (update b diff id) fun _ _ => True := by
  refine .bind .instances fun t σ₁ h₁ ht => ?_
  obtain ⟨rfl, ht⟩ := ht
  split
  next => exact .pure fun _ _ => trivial
  next i hpresent =>
    have hi := ht.own id i hid hpresent
    split
    next => exact .fail _
    next previous hdeveloped =>
      refine .bind (.editInstance id (fun _ => rfl) fun _ i _ _ hi => ⟨hi.site, hi.witness, nofun⟩) fun _ σ₂ h₂ _ => ?_
      refine .seq .act fun s _ => ?_
      have hi₂ := hi.later h₂.host
      refine .bind (hdiff σ₂ _ _ _ previous ⟨hi₂.site, fun a ha => W.inside (hi₂.witness a ha)⟩
        (hi₂.output previous hdeveloped)) fun r σ₃ h₃ hr => ?_
      refine .editInstance id (fun _ => rfl) fun σ j hσ hj hown => ⟨hown.site, hown.witness, ?_⟩
      rintro r' ⟨⟩
      obtain ⟨j', hj', hsame⟩ := ((h₂.trans h₃).trans hσ).table id i hpresent
      obtain rfl : j = j' := Option.some.inj (hj.symm.trans hj')
      dsimp only
      rw [hsame]
      exact Own.onward hr hσ

include hdiff in
theorem diffComponent_guards {id : InstanceId} (hid : W.first ≤ id.index) :
    W.Guards True σ₀ (diffComponent b diff lexem old id) fun slot σ => W.Own σ.host c.parent [slot] := by
  have hrest : W.Guards True σ₀ (if (lexem.arg 1).same (old.arg 1) then pure (.component id) else do
      Pass.act (b.lifecycle id (.setProps (lexem.arg 1)))
      update b diff id
      pure (.component id) : Pass ω Slot) fun slot σ => W.Own σ.host c.parent [slot] := by
    split
    · exact .pure fun _ _ => .of_late hid
    · exact .seq .act fun _ _ => .seq (update_guards hdiff hid) fun _ _ => .pure fun _ _ => .of_late hid
  refine .seq (.ofExcept _) fun factory _ => .bind .instances fun t σ₁ h₁ _ => ?_
  cases t[id.index]? with
  | none => exact hrest.onward h₁
  | some i =>
      dsimp only
      by_cases htype : i.factory.typeName ≠ factory.typeName
      · rw [if_pos htype]
        exact .seq (q := fun _ => True) (.fail _) fun _ _ => hrest.onward h₁
      · rw [if_neg htype]
        exact hrest.onward h₁

include hc in
theorem diffListener_guards (id : ListenerId) :
    W.Guards True σ₀ (diffListener c lexem old id : Pass ω Slot) fun slot σ => W.Own σ.host c.parent [slot] := by
  have hown : ∀ id (σ : Stage ω), W.Onward σ₀ σ → W.Own σ.host c.parent [.listener id] := fun _ _ _ => .bare nofun rfl rfl
  refine .seq (.ofExcept _) fun event _ => .seq (.ofExcept _) fun oldEvent _ => .seq (.ofExcept _) fun listener _ => ?_
  split
  · refine .seq (.edit fun σ hσ hsound => removeListener hsound (hσ.count hc.parent) _ _) fun _ _ =>
      .seq (q := fun _ => True) (.make (q := fun _ _ => True) fun σ hσ hsound => ?_) fun id _ => .pure (hown id)
    exact ⟨addListener hsound (hσ.count hc.parent) event listener, trivial⟩
  · exact .seq (.edit fun σ _ hsound => rebind hsound id listener) fun _ _ => .pure (hown id)

include hhooks in
theorem diffHook_guards (node : NodeId) :
    W.Guards True σ₀ (diffHook b lexem old node) fun slot σ => W.Own σ.host c.parent [slot] := by
  have hown : ∀ σ : Stage ω, W.Onward σ₀ σ → W.Own σ.host c.parent [.hook node] := fun _ _ => .bare nofun rfl rfl
  refine .seq (.ofExcept _) fun hook _ => .seq (.ofExcept _) fun oldHook _ => ?_
  split
  · exact .seq (.actOnHost hhooks .diff) fun _ _ => .pure hown
  · exact .seq (.actOnHost hhooks .remove) fun _ _ => .seq (.actOnHost hhooks .render) fun _ _ => .pure hown

include hdrops hc in
/-- Markup is taken away before its marker, and other markup is put there. -/
theorem diffRaw_guards {witness : NodeId} {nodes : List NodeId} (hown : W.Own σ₀.host c.parent [.raw witness nodes])
    (markup : String) : W.Guards errs σ₀ (do
      Pass.edit fun h => nodes.foldl (fun h n => h.removeChild c.parent n) h
      pure (.raw witness (← Pass.make (·.insertRaw c.parent markup (some witness)))) : Pass ω Slot) fun slot σ =>
        W.Own σ.host c.parent [slot] := by
  have hnodes := hown.nodes
  simp only [Slot.mark, Mark.tops, Slot.ends, List.mem_append, List.mem_singleton] at hnodes
  have hwitness := hnodes witness (.inr rfl)
  refine .bind (.edit fun σ hσ hsound => hdrops.all hsound (hσ.count hc.parent) fun n hn =>
    W.later hσ.host (hnodes n (.inl hn))) fun _ σ₁ h₁ _ => ?_
  refine .bind (.make (q := fun ns h => ∀ n ∈ ns, W.owns h c.parent n) fun σ hσ hsound => ?_) fun ns σ₂ h₂ hns =>
    .pure fun σ hσ => .part nofun (fun n hn => ?_) (by simp [Slot.parts])
  · have hwithin := ((hc.before (W.inside hwitness)).onward h₁).onward hσ
    obtain ⟨hturns, hnew⟩ := W.adds hsound hwithin.parent hwithin.anchor (Host.insertRaw_adds markup hwithin.parent)
    refine ⟨hturns, fun n hn => ?_⟩
    obtain rfl : n = σ.host.next := by simpa [Host.insertRaw] using hn
    exact hnew
  · rcases List.mem_append.mp hn with hn | hn
    · exact W.later hσ.host (hns n hn)
    · obtain rfl := List.mem_singleton.mp hn
      exact W.later ((h₁.trans h₂).trans hσ).host hwitness

include hhooks hc in
/-- Most instructions only look after the node at the cursor, and take nothing away. -/
theorem diffPlain_guards (index : Nat) (i : Instruction) (hplain : i.nests = false) {slot : Slot}
    (hown : W.Own σ₀.host c.parent [slot]) :
    W.Guards True σ₀ (diffInstruction b render diff e c index lexem old i slot) fun slot σ =>
      W.Own σ.host c.parent [slot] := by
  have hkept : ∀ σ : Stage ω, W.Onward σ₀ σ → W.Own σ.host c.parent [slot] := fun _ hσ => hown.onward hσ
  have hincongruent : W.Guards True σ₀ (Pass.ofExcept (lexem.incongruent old index) : Pass ω Slot) fun slot σ =>
      W.Own σ.host c.parent [slot] := (Guards.ofExcept _).weaken fun _ _ heq => by cases heq
  have hshow : ∀ {f : Host → Host}, (∀ h, Host.Inscribes c.parent h (f h)) →
      W.Guards True σ₀ (Pass.edit f >>= fun _ => pure slot : Pass ω Slot) fun slot σ => W.Own σ.host c.parent [slot] :=
    fun hf => .seq (inscribe_guards hc.parent hf) fun _ _ => .pure hkept
  have hentry : ∀ {set : String → String → Host → Host} {remove : String → Host → Host} (i : Instruction),
      (∀ x, (lexem.diffEntry old set remove).toOption = x → e.rewrite lexem old c.parent i = x) →
      W.Guards True σ₀ (Pass.ofExcept (lexem.diffEntry old set remove) >>= fun f => Pass.edit f >>= fun _ =>
        pure slot : Pass ω Slot) fun slot σ => W.Own σ.host c.parent [slot] := by
    intro set remove i hrewrite
    refine .seq (.ofExcept _) fun f hf => hshow (rewrite_inscribes (hrewrite (some f) ?_))
    rw [hf]
    rfl
  cases i with
  | attr => exact hentry .attr fun _ h => h
  | data => exact hentry .data fun _ h => h
  | style => exact hentry .style fun _ h => h
  | prop =>
      refine .seq (.ofExcept _) fun f hf => hshow ?_
      have hrewrite : e.rewrite lexem old c.parent .prop = some f := by
        rw [Engine.rewrite, hf]
        rfl
      exact rewrite_inscribes hrewrite
  | cssClass =>
      have hrewrite : e.rewrite lexem old c.parent .cssClass = some (lexem.diffClass old c.parent) := rfl
      exact hshow (rewrite_inscribes hrewrite)
  | classes =>
      have hrewrite : e.rewrite lexem old c.parent .classes = some (lexem.diffClasses old c.parent) := rfl
      exact hshow (rewrite_inscribes hrewrite)
  | id =>
      change W.Guards True σ₀ (if (lexem.arg 0).same (old.arg 0) = true then pure slot else
        Pass.edit (·.setId c.parent (lexem.arg 0).toText) >>= fun _ => pure slot : Pass ω Slot) _
      split
      · exact .pure hkept
      · exact hshow fun h => .entry h _ _ _ rfl
  | execute =>
      change W.Guards True σ₀ (if lexem.packedChanged old = true then runCallback b lexem >>= fun _ => pure slot
        else pure slot : Pass ω Slot) _
      split
      · exact .seq (runCallback_guards lexem) fun _ _ => .pure hkept
      · exact .pure hkept
  | ref => exact .seq (nameNode_guards lexem c) fun _ _ => .pure hkept
  | text =>
      cases slot with
      | text n =>
          unfold diffInstruction
          dsimp only
          split
          · exact .pure hkept
          · exact .seq (inscribe_guards (W.inside (hown.nodes n (by simp [Slot.mark, Mark.tops, Slot.ends])))
              fun h => .entry h _ _ _ rfl) fun _ _ => .pure hkept
      | _ => exact hincongruent
  | on =>
      cases slot with
      | listener id => exact diffListener_guards lexem old hc id
      | _ => exact hincongruent
  | onDom =>
      cases slot with
      | hook node => exact diffHook_guards hhooks lexem old node
      | _ => exact hincongruent
  | tag | ifElse | switchUse | each | html | component => cases hplain

include hdrops hhooks hrender hdiff hc in
theorem diffInstruction_guards (index : Nat) (i : Instruction) {slot : Slot} (hown : W.Own σ₀.host c.parent [slot]) :
    W.Guards True σ₀ (diffInstruction b render diff e c index lexem old i slot) fun slot σ =>
      W.Own σ.host c.parent [slot] := by
  have hkept : ∀ σ : Stage ω, W.Onward σ₀ σ → W.Own σ.host c.parent [slot] := fun _ hσ => hown.onward hσ
  have hincongruent : W.Guards True σ₀ (Pass.ofExcept (lexem.incongruent old index) : Pass ω Slot) fun slot σ =>
      W.Own σ.host c.parent [slot] := (Guards.ofExcept _).weaken fun _ _ heq => by cases heq
  cases i with
  | tag =>
      cases slot with
      | element n kids => exact diffTag_guards hdrops hhooks hrender hdiff e lexem old hc hown
      | _ => exact hincongruent
  | ifElse =>
      cases slot with
      | branch w developed =>
          exact .seq (chosenPhrase_guards lexem) fun _ _ => diffBranch_guards hdrops hhooks hrender hdiff e hc _ _ hown
      | _ => exact hincongruent
  | switchUse =>
      cases slot with
      | branch w developed =>
          unfold diffInstruction
          dsimp only
          split
          · exact .seq (switchedPhrase_guards e lexem) fun _ _ =>
              diffBranch_guards hdrops hhooks hrender hdiff e hc _ _ hown
          · exact .pure hkept
      | _ => exact hincongruent
  | each =>
      cases slot with
      | each w items =>
          have hwitness := W.inside (hown.nodes w (by simp [Slot.mark, Mark.tops, Slot.ends]))
          refine .seq (eachPhrases_guards lexem) fun phrases _ => ?_
          refine .bind (diffItems_guards hrender hdiff e phrases items (hc.before hwitness) hown.parts)
            fun result σ₁ h₁ hresult => ?_
          refine .bind (teardowns_guards hdrops hhooks (h₁.count hc.parent) hresult.2) fun _ _ h₂ _ => .pure fun _ hσ => ?_
          exact .part nofun (fun n hn => W.later ((h₁.trans h₂).trans hσ).host (hown.nodes n hn)) fun r hr =>
            (hresult.1 r hr).onward (h₂.trans hσ)
      | _ => exact hincongruent
  | html =>
      cases slot with
      | raw w nodes =>
          unfold diffInstruction
          dsimp only
          split
          · exact .pure hkept
          · exact diffRaw_guards hdrops hc hown _
      | _ => exact hincongruent
  | component =>
      cases slot with
      | component id => exact diffComponent_guards hdiff lexem old hown.component
      | _ => exact hincongruent
  | attr | data | style | prop | cssClass | classes | id | execute | ref | text | on | onDom =>
      exact diffPlain_guards hhooks e lexem old hc index _ rfl hown

include hdrops hhooks hrender hdiff hc in
theorem diffLexem_guards (index : Nat) {slot : Slot} (hown : W.Own σ₀.host c.parent [slot]) :
    W.Guards True σ₀ (diffLexem b render diff e c index lexem old slot) fun slot σ => W.Own σ.host c.parent [slot] := by
  unfold diffLexem
  split
  · exact .pure fun _ hσ => hown.onward hσ
  · split
    · exact diffInstruction_guards hdrops hhooks hrender hdiff e lexem old hc index _ hown
    · split
      · next previous =>
        split
        · refine .seq (develop_guards e lexem) fun s _ =>
            .bind (hdiff _ e c _ previous hc (hown.parts previous (by simp [Slot.parts]))) fun r σ₁ _ hr => ?_
          exact .pure fun _ hσ => .part nofun nofun (by simpa [Slot.parts, Slot.inside] using Own.onward hr hσ)
        · exact .pure fun _ hσ => hown.onward hσ
      · exact (Guards.ofExcept _).weaken fun _ _ heq => by cases heq

include hdrops hhooks hrender hdiff in
theorem diffLexems_guards (lexems : List Lexem) :
    ∀ {σ₀ : Stage ω} (index : Nat) (olds : List Lexem) (slots : List Slot), c.Within σ₀.host →
      W.Own σ₀.host c.parent slots →
      W.Guards True σ₀ (diffLexems b render diff e c index lexems olds slots)
        fun slots σ => W.Own σ.host c.parent slots := by
  induction lexems with
  | nil =>
      intro σ₀ index olds slots _ _
      simp only [diffLexems]
      exact .pure fun _ _ => .nil
  | cons lexem lexems ih =>
      intro σ₀ index olds slots hc hown
      cases olds with
      | nil =>
          simp only [diffLexems]
          exact .pure fun _ _ => .nil
      | cons old olds =>
      cases slots with
      | nil =>
          simp only [diffLexems]
          exact .pure fun _ _ => .nil
      | cons slot slots =>
          have hsplit := hown.first
          have hrest : W.Guards True σ₀ (diffLexem b render diff e c index lexem old slot >>= fun slot =>
              diffLexems b render diff e c (index + 1) lexems olds slots >>= fun slots => pure (slot :: slots))
              fun slots σ => W.Own σ.host c.parent slots :=
            .bind (diffLexem_guards hdrops hhooks hrender hdiff e lexem old hc index hsplit.1) fun _ _ h₁ hslot =>
              .bind (ih _ olds slots (hc.onward h₁) (hsplit.2.onward h₁)) fun _ _ h₂ hslots =>
                .pure fun _ hσ => (Own.onward hslot (h₂.trans hσ)).append (Own.onward hslots hσ)
          unfold diffLexems
          dsimp only
          split
          · exact hrest
          · exact .seq (.ofExcept _) fun _ _ => hrest

include hdrops hhooks hrender hdiff hc in
theorem diffPhrase_guards (phrase : Phrase) {previous : Rendered} (hown : W.Own σ₀.host c.parent previous.slots) :
    W.Guards True σ₀ (diffPhrase b render diff e c phrase previous) fun r σ => W.Own σ.host c.parent r.slots := by
  unfold diffPhrase
  split
  · exact .pure fun _ hσ => hown.onward hσ
  · have hrest : W.Guards True σ₀ (diffLexems b render diff e c 0 phrase.sentence.lexems previous.sentence.lexems
        previous.slots >>= fun slots => pure ⟨phrase.identity, phrase.sentence, slots⟩) fun (r : Rendered) σ =>
          W.Own σ.host c.parent r.slots :=
      .bind (diffLexems_guards hdrops hhooks hrender hdiff e _ 0 _ _ hc hown) fun _ _ _ hslots =>
        .pure fun _ hσ => Own.onward hslots hσ
    dsimp only
    split
    · exact .seq (q := fun _ => True) (.fail _) fun _ _ => hrest
    · exact hrest

end Diffing

/-- A diff takes away and puts what it may, wherever it fails. -/
theorem diffWithin_guards (hdrops : W.Drops) (hhooks : W.Hooks b) (depth : Nat) : DiffGuards W (diffWithin b depth) := by
  induction depth with
  | zero => exact fun _ _ _ _ _ _ _ _ _ _ => trivial
  | succ depth ih =>
      exact fun _ e _ phrase _ hc hown =>
        diffPhrase_guards hdrops hhooks (renderWithin_guards hhooks depth e) ih e hc phrase hown

end Engine

end Parlance
