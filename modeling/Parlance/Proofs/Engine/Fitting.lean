import Parlance.Proofs.Engine.Candour
import Parlance.Proofs.Engine.Success

/-! What is retained fits its lexems. A pass finds in every slot what the same strategy has left there, so it leaves
slots that fit again, and it has no need of a fall-back. -/

namespace Parlance

open Pass

variable {ω : Type} (b : Behaviour ω)

namespace Engine

/-- A slot of the kind that a strategy leaves, with outputs inside it that fit. -/
def Left (e : Engine) (strategy : Option Instruction) (slot : Slot) : Prop :=
  slot.isOf strategy = true ∧ ∀ part ∈ slot.parts, e.Fitted part

variable {e : Engine}

theorem Left.leaf {strategy : Option Instruction} {slot : Slot} (hkind : slot.isOf strategy = true)
    (hparts : slot.parts = []) : e.Left strategy slot := ⟨hkind, by simp [hparts]⟩

theorem Left.element {node : NodeId} {children : List Rendered} (h : ∀ r ∈ children, e.Fitted r) :
    e.Left (some .tag) (.element node children) := ⟨rfl, h⟩

theorem Left.branch {i : Instruction} (hi : i = .ifElse ∨ i = .switchUse) {witness : NodeId} {developed : Option Rendered}
    (h : ∀ r ∈ developed, e.Fitted r) : e.Left (some i) (.branch witness developed) :=
  ⟨by rcases hi with rfl | rfl <;> rfl, fun r hr => h r (Option.mem_toList.mp hr)⟩

section Rendering

variable {b} {inner : Cursor → Phrase → Pass ω Rendered}

theorem chosenPhrase_tells (lexem : Lexem) : Tells e (fun _ => chosenPhrase b lexem) fun _ => True := by
  unfold chosenPhrase
  dsimp only
  generalize lexem.arg _ = chosen
  cases chosen with
  | null | sentence => exact .pure trivial
  | render => exact .bind (.act _) fun _ _ => .pure trivial
  | _ => exact (Tells.ofExcept (Lexem.invalid_mild _ _)).weaken fun _ _ => trivial

theorem switchedPhrase_tells (lexem : Lexem) : Tells e (fun _ => e.switchedPhrase b lexem) fun _ => True := by
  unfold switchedPhrase
  split
  · exact .pure trivial
  · exact .pure trivial
  · split
    · exact .fail rfl
    · exact .bind (.attempt (fun _ => rfl) _) fun _ _ => .pure trivial
  · exact (Tells.ofExcept (Lexem.invalid_mild _ _)).weaken fun _ _ => trivial

theorem eachPhrases_tells (lexem : Lexem) : Tells e (fun _ => eachPhrases b lexem) fun _ => True := by
  have hinvalid : Tells e (fun _ => (Pass.ofExcept (lexem.invalid 1 "a render function") : Pass ω (List Phrase)))
      fun _ => True := (Tells.ofExcept (Lexem.invalid_mild _ _)).weaken fun _ _ => trivial
  -- What is listed is looked at first, so the render function is looked at once in every case.
  unfold eachPhrases
  dsimp only
  split
  · split
    · exact .act _
    · exact hinvalid
  · split
    · next render hrender => exact .act (itemPhrases b render 0 [])
    · exact hinvalid
  · refine .bind (.ofExcept (Lexem.invalid_mild _ _)) fun items _ => ?_
    split
    · exact .act _
    · exact hinvalid

theorem develop_tells (lexem : Lexem) : Tells e (fun _ => e.develop b lexem) fun _ => True := by
  unfold develop
  split
  · next error heq =>
    exact .fail rfl
  · exact .attempt (fun _ => rfl) _

theorem runCallback_tells (lexem : Lexem) : Tells e (fun _ => runCallback b lexem) fun _ => True :=
  .bind (.ofExcept Lexem.callbackArg_mild) fun _ _ => .act _

theorem nameNode_tells (c : Cursor) (lexem : Lexem) : Tells e (fun _ => (nameNode c lexem : Pass ω Unit)) fun _ => True := by
  unfold nameNode
  split
  · exact .pure trivial
  · exact .bind (.ofExcept (Lexem.stringArg_mild 0)) fun _ _ => .editInstance _ (fun _ => rfl) fun _ _ => .inl

variable (hinner : ∀ c p, Tells e (fun _ => inner c p) e.Fitted)
include hinner

theorem renderTag_tells (c : Cursor) (lexem : Lexem) :
    Tells e (fun _ => renderTag inner e c lexem) (e.Left (some .tag)) := by
  refine .bind (.ofExcept (Lexem.stringArg_mild 0)) fun tag _ => .bind (.make _) fun node _ => ?_
  refine .bind (.mapM_all fun child _ => ?_) fun children hchildren => .pure (.element hchildren)
  exact .bind (.ofExcept (e.childPhrase_mild lexem child)) fun phrase _ => hinner _ phrase

theorem renderBranch_tells {i : Instruction} (hi : i = .ifElse ∨ i = .switchUse) (c : Cursor) (label : String)
    (chosen : Option Phrase) : Tells e (fun _ => renderBranch inner e c label chosen) (e.Left (some i)) := by
  have hlast : ∀ developed : Option Rendered, (∀ r ∈ developed, e.Fitted r) → Tells e (fun _ => (do
      pure (.branch (← Pass.witness e c label) developed) : Pass ω Slot)) (e.Left (some i)) :=
    fun developed h => .bind (.witness c label) fun _ _ => .pure (Left.branch hi h)
  unfold renderBranch
  cases chosen with
  | none => exact hlast none nofun
  | some phrase => exact .bind (hinner c phrase) fun r hr => hlast (some r) (by rintro _ ⟨⟩; exact hr)

theorem mount_tells (c : Cursor) (factory : Factory) (props : Arg) :
    Tells e (fun _ => mount b inner e c factory props) (e.Left (some .component)) := by
  have hpush : ∀ i : Instance, i.engine = e → i.developed = none → Tells e (fun _ => (modify fun stage : Stage ω =>
      { stage with instances := stage.instances.push i } : Pass ω PUnit)) fun _ => True := by
    intro i hengine hnone σ hσ
    refine .ok (fun _ => rfl) (fun n j hj => ?_) trivial
    rw [Array.getElem?_push] at hj
    split at hj
    · cases hj
      exact ⟨hengine, by simp [hnone]⟩
    · exact hσ n j hj
  refine .bind .instances fun table _ => .bind (.act _) fun _ _ => .bind (hpush _ rfl rfl) fun _ _ => ?_
  refine .bind (.act _) fun _ _ => .bind (.act _) fun s _ => .bind (hinner _ _) fun developed hdeveloped => ?_
  refine .bind (.witness c "component") fun witness _ => .bind (.editInstance _ (fun _ => rfl) fun i r hr => .inr ?_)
    fun _ _ => .bind (.act _) fun _ _ => .pure (.leaf rfl rfl)
  cases hr
  exact hdeveloped

theorem renderInstruction_tells (c : Cursor) (lexem : Lexem) (i : Instruction) :
    Tells e (fun _ => renderInstruction b inner e c lexem i) (e.Left (some i)) := by
  cases i with
  | tag => exact renderTag_tells hinner c lexem
  | text =>
      unfold renderInstruction
      refine (Tells.make _).weaken ?_
      rintro _ ⟨h, rfl⟩
      exact .leaf rfl rfl
  | attr | data | style =>
      exact .bind (.ofExcept (Lexem.stringArg_mild 0)) fun _ _ => .bind (.edit _) fun _ _ => .pure (.leaf rfl rfl)
  | prop =>
      exact .bind (.ofExcept (Lexem.stringArg_mild 0)) fun _ _ => .bind (.ofExcept (Lexem.scalarArg_mild 1)) fun _ _ =>
        .bind (.edit _) fun _ _ => .pure (.leaf rfl rfl)
  | cssClass =>
      unfold renderInstruction
      dsimp only
      split
      · exact .bind (.edit _) fun _ _ => .pure (.leaf rfl rfl)
      · exact .pure (.leaf rfl rfl)
  | classes | id => exact .bind (.edit _) fun _ _ => .pure (.leaf rfl rfl)
  | on =>
      exact .bind (.ofExcept (Lexem.stringArg_mild 0)) fun _ _ => .bind (.ofExcept Lexem.listener_mild) fun _ _ =>
        .bind (.make _) fun _ _ => .pure (.leaf rfl rfl)
  | ifElse => exact .bind (chosenPhrase_tells lexem) fun chosen _ => renderBranch_tells hinner (.inl rfl) c _ chosen
  | switchUse => exact .bind (switchedPhrase_tells lexem) fun chosen _ => renderBranch_tells hinner (.inr rfl) c _ chosen
  | each =>
      exact .bind (eachPhrases_tells lexem) fun phrases _ => .bind (.mapM_all fun phrase _ => hinner c phrase)
        fun items hitems => .bind (.witness c "each") fun _ _ => .pure ⟨rfl, hitems⟩
  | html => exact .bind (.make _) fun _ _ => .bind (.witness c "html") fun _ _ => .pure (.leaf rfl rfl)
  | onDom =>
      exact .bind (.ofExcept Lexem.hookArg_mild) fun _ _ => .bind (.actOnHost _) fun _ _ => .pure (.leaf rfl rfl)
  | execute => exact .bind (runCallback_tells lexem) fun _ _ => .pure (.leaf rfl rfl)
  | ref => exact .bind (nameNode_tells c lexem) fun _ _ => .pure (.leaf rfl rfl)
  | component => exact .bind (.ofExcept Lexem.componentArg_mild) fun factory _ => mount_tells hinner c factory _

theorem renderLexem_tells (c : Cursor) (lexem : Lexem) :
    Tells e (fun _ => renderLexem b inner e c lexem) (e.Keeps lexem) := by
  unfold renderLexem
  split
  · next hspace =>
    cases hword : e.instruction? lexem with
    | some i =>
        exact (renderInstruction_tells hinner c lexem i).weaken fun slot hslot =>
          ⟨by rw [Leaves, if_pos hspace, hword]; exact hslot.1, hslot.2⟩
    | none =>
        refine .bind (develop_tells lexem) fun s _ => .bind (hinner c _) fun r hr =>
          .pure ⟨?_, by simpa [Slot.parts] using hr⟩
        rw [Leaves, if_pos hspace, hword]
        rfl
  · next hspace => exact .pure ⟨by rw [Leaves, if_neg hspace], by simp [Slot.parts]⟩

theorem renderPhrase_tells (c : Cursor) (phrase : Phrase) : Tells e (fun _ => renderPhrase b inner e c phrase) e.Fitted :=
  .bind (.mapM fun lexem _ => renderLexem_tells hinner c lexem) fun _ hslots => .pure (.of_keeps hslots)

end Rendering

/-- Rendering tells nothing of congruence, and its output fits. -/
theorem renderWithin_tells (depth : Nat) (c : Cursor) (phrase : Phrase) :
    Tells e (fun _ => renderWithin b depth e c phrase) e.Fitted := by
  induction depth generalizing c phrase with
  | zero => exact fun _ _ => .trouble fun _ => rfl
  | succ depth ih => exact renderPhrase_tells ih c phrase

section Removing

set_option linter.unusedSectionVars false

variable {b} {within : InstanceId → Pass ω (List InstanceId)}
variable (hwithin : ∀ id, Tells e (fun _ => within id) fun _ => True)
include hwithin

mutual

theorem seek_tells (lexem : Lexem) : ∀ slot : Slot, Tells e (fun _ => slot.seek b within lexem) fun _ => True
  | .element _ children => seekAll_tells children
  | .branch _ developed => seekOption_tells developed
  | .each _ items => seekAll_tells items
  | .hook node => by
      rw [Slot.seek]
      split
      · exact .bind (.actOnHost _) fun _ _ => .pure trivial
      · exact .pure trivial
  | .component id => hwithin id
  | .compound developed => seekWith_tells developed
  | .attribute => .pure trivial
  | .text _ => .pure trivial
  | .listener _ => .pure trivial
  | .raw _ _ => .pure trivial
  | .skipped => .pure trivial
  | .effect => .pure trivial

theorem seekWith_tells : ∀ r : Rendered, Tells e (fun _ => r.seekWith b within) fun _ => True
  | ⟨_, sentence, slots⟩ => seekSlots_tells sentence.lexems slots

theorem seekSlots_tells : ∀ (lexems : List Lexem) (slots : List Slot),
    Tells e (fun _ => seekSlots b within lexems slots) fun _ => True
  | lexem :: lexems, slot :: slots =>
      .bind (seek_tells lexem slot) fun _ _ => .bind (seekSlots_tells lexems slots) fun _ _ => .pure trivial
  | [], _ => by
      simp only [seekSlots]
      exact .pure trivial
  | _ :: _, [] => by
      simp only [seekSlots]
      exact .pure trivial

theorem seekAll_tells : ∀ rs : List Rendered, Tells e (fun _ => seekAll b within rs) fun _ => True
  | [] => .pure trivial
  | r :: rs => .bind (seekWith_tells r) fun _ _ => .bind (seekAll_tells rs) fun _ _ => .pure trivial

theorem seekOption_tells : ∀ developed : Option Rendered, Tells e (fun _ => seekOption b within developed) fun _ => True
  | none => .pure trivial
  | some r => seekWith_tells r

end

end Removing

theorem seekComponent_tells (depth : Nat) (id : InstanceId) :
    Tells e (fun _ => seekComponent b depth id) fun _ => True := by
  induction depth generalizing id with
  | zero => exact .pure trivial
  | succ depth ih =>
      refine .bind .instances fun table _ => ?_
      dsimp only
      split
      · exact .pure trivial
      · split
        · exact .bind (seekWith_tells ih _) fun _ _ => .pure trivial
        · exact .pure trivial

theorem unmounting_tells (found : List InstanceId) (detach : Array Instance → Host → Host) :
    Tells e (fun _ => unmounting b found detach) fun _ => True := by
  refine .bind (.forM fun id _ => .act _) fun _ _ => .bind .instances fun table _ => .bind (.edit _) fun _ _ => ?_
  exact .forM fun id _ => .bind (.act _) fun _ _ => .editInstance id (fun _ => rfl) fun _ _ hr => by cases hr

/-- Nor does removing, and whatever is left is as it was. -/
theorem teardown_tells (p : NodeId) (r : Rendered) : Tells e (fun _ => teardown b p r) fun _ => True :=
  .bind .instances fun _ _ => .bind (seekWith_tells (seekComponent_tells b _) r) fun _ _ => unmounting_tells b _ _

theorem teardownSlot_tells (p : NodeId) (lexem : Lexem) (slot : Slot) :
    Tells e (fun _ => teardownSlot b p lexem slot) fun _ => True :=
  .bind .instances fun _ _ => .bind (seek_tells (seekComponent_tells b _) lexem slot) fun _ _ => unmounting_tells b _ _

section Diffing

variable {b} {render : Cursor → Phrase → Pass ω Rendered}
variable {diff : Objections → Engine → Cursor → Phrase → Rendered → Pass ω Rendered}
variable (hrender : ∀ c p, Tells e (fun _ => render c p) e.Fitted)
variable (hdiff : ∀ c p r, e.Fitted r → Tells e (fun q => diff q e c p r) e.Fitted)

section Parts

include hrender hdiff

theorem diffItems_tells (c : Cursor) (phrases : List Phrase) (items : List Rendered) (hitems : ∀ r ∈ items, e.Fitted r) :
    Tells e (fun q => diffItems render (diff q) e c phrases items) fun out => ∀ r ∈ out.1, e.Fitted r := by
  induction phrases generalizing items with
  | nil => exact .pure nofun
  | cons p ps ih =>
      cases items with
      | nil =>
          exact .bind (hrender c p) fun r hr => .bind (ih [] nofun) fun out hout =>
            .pure (List.forall_mem_cons.mpr ⟨hr, hout⟩)
      | cons old olds =>
          obtain ⟨hold, holds⟩ := List.forall_mem_cons.mp hitems
          exact .bind (hdiff c p old hold) fun r hr => .bind (ih olds holds) fun out hout =>
            .pure (List.forall_mem_cons.mpr ⟨hr, hout⟩)

theorem diffChildren_tells (c : Cursor) (tag : Lexem) (children oldChildren : List Arg) (olds : List Rendered)
    (hfitted : ∀ r ∈ olds, e.Fitted r) :
    Tells e (fun q => diffChildren render (diff q) e c tag children oldChildren olds) fun out =>
      ∀ r ∈ out.1, e.Fitted r := by
  induction children generalizing oldChildren olds with
  | nil => exact .pure nofun
  | cons child children ih =>
      have hphrase := Tells.ofExcept (ω := ω) (e := e) (e.childPhrase_mild tag child)
      cases olds with
      | nil =>
          exact .bind hphrase fun p _ => .bind (hrender c p) fun r hr => .bind (ih [] [] nofun) fun out hout =>
            .pure (List.forall_mem_cons.mpr ⟨hr, hout⟩)
      | cons old olds =>
          obtain ⟨hold, holds⟩ := List.forall_mem_cons.mp hfitted
          have hlast : ∀ r, e.Fitted r →
              Tells e (fun q => diffChildren render (diff q) e c tag children oldChildren.tail olds >>= fun out =>
                pure (r :: out.1, out.2)) fun out => ∀ r ∈ out.1, e.Fitted r := fun r hr =>
            .bind (ih oldChildren.tail olds holds) fun out hout => .pure (List.forall_mem_cons.mpr ⟨hr, hout⟩)
          unfold diffChildren
          dsimp only
          split
          · exact hlast old hold
          · exact .bind hphrase fun p _ => .bind (hdiff c p old hold) hlast

theorem diffTag_tells (c : Cursor) (lexem old : Lexem) (element : NodeId) (children : List Rendered)
    (hchildren : ∀ r ∈ children, e.Fitted r) :
    Tells e (fun q => diffTag b render (diff q) e c lexem old element children) (e.Left (some .tag)) := by
  refine .bind (.ofExcept (Lexem.stringArg_mild 0)) fun tag _ =>
    .bind (.ofExcept (Lexem.stringArg_mild 0)) fun oldTag _ => ?_
  dsimp only
  split
  · exact .bind (renderTag_tells hrender _ lexem) fun slot hslot => .bind (teardownSlot_tells b _ _ _) fun _ _ => .pure hslot
  · exact .bind (diffChildren_tells hrender hdiff _ lexem _ _ children hchildren) fun out hout =>
      .bind (.forM fun r _ => teardown_tells b _ r) fun _ _ => .pure (.element hout)

theorem diffBranch_tells {i : Instruction} (hi : i = .ifElse ∨ i = .switchUse) (c : Cursor) (witness : NodeId)
    (chosen : Option Phrase) (developed : Option Rendered) (replace : Bool) (hdeveloped : ∀ r ∈ developed, e.Fitted r) :
    Tells e (fun q => diffBranch b render (diff q) e c witness chosen developed replace) (e.Left (some i)) := by
  have hremove : Tells e (fun _ => developed.forM (teardown b c.parent)) fun _ => True := by
    cases developed with
    | none => exact .pure trivial
    | some r => exact teardown_tells b _ r
  have hcome : ∀ {m : Objections → Pass ω Rendered}, Tells e m e.Fitted →
      Tells e (fun q => m q >>= fun r => pure (some r) >>= fun developed => pure (.branch witness developed))
        (e.Left (some i)) :=
    fun hm => .bind hm fun r hr => .pure (Left.branch hi (by rintro _ ⟨⟩; exact hr))
  unfold diffBranch
  cases chosen with
  | none => cases developed <;> exact .bind hremove fun _ _ => .pure (Left.branch hi nofun)
  | some phrase =>
      have hnew : Tells e (fun _ => developed.forM (teardown b c.parent) >>= fun _ => render (c.before witness) phrase >>=
          fun r => pure (some r) >>= fun developed => pure (.branch witness developed)) (e.Left (some i)) :=
        .bind hremove fun _ _ => hcome (hrender _ phrase)
      cases developed with
      | none => exact hnew
      | some r =>
          cases replace with
          | true => exact hnew
          | false => exact hcome (hdiff _ phrase r (hdeveloped r rfl))

end Parts

section Updating

include hdiff

theorem update_tells (id : InstanceId) : Tells e (fun q => update b (diff q) id) fun _ => True := by
  refine .bind .instances fun table htable => ?_
  split
  · exact .pure trivial
  · next i hi =>
    obtain ⟨hengine, hdeveloped⟩ := htable _ i hi
    split
    · exact .fail rfl
    · next previous hprevious =>
      refine .bind (.editInstance id (fun _ => rfl) nofun) fun _ _ => .bind (.act _) fun s _ => ?_
      rw [hengine]
      refine .bind (hdiff _ _ previous (hdeveloped previous hprevious)) fun next hnext => ?_
      refine .editInstance id (fun _ => rfl) fun _ r hr => .inr ?_
      cases hr
      exact hnext

theorem diffComponent_tells (lexem old : Lexem) (id : InstanceId) :
    Tells e (fun q => diffComponent b (diff q) lexem old id) (e.Left (some .component)) := by
  have hlast : Tells e (fun q => if (lexem.arg 1).same (old.arg 1) then pure (.component id)
      else do
        Pass.act (b.lifecycle id (.setProps (lexem.arg 1)))
        update b (diff q) id
        pure (.component id)) (e.Left (some .component)) := by
    split
    · exact .pure (.leaf rfl rfl)
    · exact .bind (.act _) fun _ _ => .bind (update_tells hdiff id) fun _ _ => .pure (.leaf rfl rfl)
  refine .bind (.ofExcept Lexem.componentArg_mild) fun factory _ => .bind .instances fun table _ => ?_
  dsimp only
  split
  · exact hlast
  · split
    · exact .bind (Q := fun _ => False) (.fail rfl) fun _ => False.elim
    · exact hlast

end Updating

theorem diffListener_tells (c : Cursor) (lexem old : Lexem) (id : ListenerId) :
    Tells e (fun _ => (diffListener c lexem old id : Pass ω Slot)) (e.Left (some .on)) := by
  refine .bind (.ofExcept (Lexem.stringArg_mild 0)) fun event _ =>
    .bind (.ofExcept (Lexem.stringArg_mild 0)) fun oldEvent _ =>
    .bind (.ofExcept Lexem.listener_mild) fun listener _ => ?_
  split
  · exact .bind (.edit _) fun _ _ => .bind (.make _) fun _ _ => .pure (.leaf rfl rfl)
  · exact .bind (.edit _) fun _ _ => .pure (.leaf rfl rfl)

theorem diffHook_tells (lexem old : Lexem) (node : NodeId) :
    Tells e (fun _ => diffHook b lexem old node) (e.Left (some .onDom)) := by
  refine .bind (.ofExcept Lexem.hookArg_mild) fun hook _ => .bind (.ofExcept Lexem.hookArg_mild) fun oldHook _ => ?_
  dsimp only
  split
  · exact .bind (.actOnHost _) fun _ _ => .pure (.leaf rfl rfl)
  · exact .bind (.actOnHost _) fun _ _ => .bind (.actOnHost _) fun _ _ => .pure (.leaf rfl rfl)

include hrender hdiff

/-- An instruction goes on with a slot that it has left itself, and leaves one of the kind again. -/
theorem diffInstruction_tells (c : Cursor) (index : Nat) (lexem old : Lexem) (i : Instruction) {slot : Slot}
    (hslot : e.Left (some i) slot) :
    Tells e (fun q => diffInstruction b render (diff q) e c index lexem old i slot) (e.Left (some i)) := by
  obtain ⟨hkind, hparts⟩ := id hslot
  cases i with
  | tag =>
      cases slot with
      | element node children => exact diffTag_tells hrender hdiff c lexem old node children hparts
      | _ => cases hkind
  | text =>
      cases slot with
      | text node =>
          unfold diffInstruction
          dsimp only
          split
          · exact .pure hslot
          · exact .bind (.edit _) fun _ _ => .pure hslot
      | _ => cases hkind
  | attr | data | style =>
      exact .bind (.ofExcept (Lexem.diffEntry_mild _ _)) fun _ _ => .bind (.edit _) fun _ _ => .pure hslot
  | prop => exact .bind (.ofExcept (Lexem.diffProperty_mild _ _)) fun _ _ => .bind (.edit _) fun _ _ => .pure hslot
  | cssClass | classes => exact .bind (.edit _) fun _ _ => .pure hslot
  | id =>
      unfold diffInstruction
      dsimp only
      split
      · exact .pure hslot
      · exact .bind (.edit _) fun _ _ => .pure hslot
  | on =>
      cases slot with
      | listener id => exact diffListener_tells c lexem old id
      | _ => cases hkind
  | ifElse =>
      cases slot with
      | branch witness developed =>
          exact .bind (chosenPhrase_tells lexem) fun chosen _ => diffBranch_tells hrender hdiff (.inl rfl) c witness chosen
            developed _ fun r hr => hparts r (Option.mem_toList.mpr hr)
      | _ => cases hkind
  | switchUse =>
      cases slot with
      | branch witness developed =>
          unfold diffInstruction
          dsimp only
          split
          · exact .bind (switchedPhrase_tells lexem) fun chosen _ => diffBranch_tells hrender hdiff (.inr rfl) c witness
              chosen developed _ fun r hr => hparts r (Option.mem_toList.mpr hr)
          · exact .pure hslot
      | _ => cases hkind
  | each =>
      cases slot with
      | each witness items =>
          exact .bind (eachPhrases_tells lexem) fun phrases _ => .bind (diffItems_tells hrender hdiff _ phrases items hparts)
            fun out hout => .bind (.forM fun r _ => teardown_tells b _ r) fun _ _ => .pure ⟨rfl, hout⟩
      | _ => cases hkind
  | html =>
      cases slot with
      | raw witness nodes =>
          unfold diffInstruction
          dsimp only
          split
          · exact .pure hslot
          · exact .bind (.edit _) fun _ _ => .bind (.make _) fun _ _ => .pure (.leaf rfl rfl)
      | _ => cases hkind
  | onDom =>
      cases slot with
      | hook node => exact diffHook_tells lexem old node
      | _ => cases hkind
  | execute =>
      unfold diffInstruction
      dsimp only
      split
      · exact .bind (runCallback_tells lexem) fun _ _ => .pure hslot
      · exact .pure hslot
  | ref => exact .bind (nameNode_tells c lexem) fun _ _ => .pure hslot
  | component =>
      cases slot with
      | component id => exact diffComponent_tells hdiff lexem old id
      | _ => cases hkind

/-- No lexem comes to its fall-back. -/
theorem diffLexemBy_tells (stray : Objections → PassError) (c : Cursor) (index : Nat) (lexem old : Lexem) {slot : Slot}
    (hcongruent : lexem.isCongruent old = true) (hslot : e.Keeps old slot) :
    Tells e (fun q => diffLexemBy b render (diff q) (stray q) e c index lexem old slot) (e.Keeps lexem) := by
  obtain ⟨hleaves, hparts⟩ := hslot.congruent hcongruent
  unfold diffLexemBy
  cases hspace : e.isTarget lexem.space with
  | false =>
      simp only [Bool.false_and, Bool.false_eq_true, if_false, diffLexem, hspace, Bool.not_false, Bool.true_or, if_true]
      exact .pure ⟨hleaves, hparts⟩
  | true =>
      rw [Leaves, if_pos hspace] at hleaves
      have hserves := Slot.serves_of_isOf hleaves
      simp only [hserves, Bool.not_true, Bool.and_false, Bool.false_eq_true, if_false]
      have hkeeps : ∀ slot', e.Left (e.instruction? lexem) slot' → e.Keeps lexem slot' := fun slot' h =>
        ⟨by rw [Leaves, if_pos hspace]; exact h.1, h.2⟩
      unfold diffLexem
      split
      · exact .pure (hkeeps slot ⟨hleaves, hparts⟩)
      · cases hword : e.instruction? lexem with
        | some i =>
            rw [hword] at hleaves hkeeps
            exact (diffInstruction_tells hrender hdiff c index lexem old i ⟨hleaves, hparts⟩).weaken hkeeps
        | none =>
            rw [hword] at hleaves hkeeps
            cases slot with
            | compound previous =>
                dsimp only
                split
                · refine .bind (develop_tells lexem) fun s _ => .bind (hdiff c _ previous (hparts _ List.mem_cons_self))
                    fun r hr => ?_
                  exact .pure (hkeeps _ ⟨rfl, by simpa [Slot.parts] using hr⟩)
                · exact .pure (hkeeps _ ⟨rfl, hparts⟩)
            | _ => cases hleaves

theorem diffLexemsBy_tells (s s' : Sentence) (c : Cursor) (index : Nat) (lexems olds : List Lexem) (slots : List Slot)
    (hlexems : s.lexems.drop index = lexems) (holds : s'.lexems.drop index = olds)
    (hlength : lexems.length = olds.length) (hslots : List.Forall₂ e.Keeps olds slots) :
    Tells e (fun q => diffLexemsBy b q render (diff q) s s' e c index lexems olds slots) (List.Forall₂ e.Keeps lexems) := by
  induction hslots generalizing index lexems with
  | nil =>
      obtain rfl := List.eq_nil_of_length_eq_zero hlength
      exact .pure .nil
  | @cons old slot olds slots hslot _ ih =>
      cases lexems with
      | nil => cases hlength
      | cons lexem lexems =>
          unfold diffLexemsBy
          cases hcongruent : lexem.isCongruent old with
          | false =>
              have hat : s.lexems[index]? = some lexem := by rw [← List.head?_drop, hlexems, List.head?_cons]
              have hatOld : s'.lexems[index]? = some old := by rw [← List.head?_drop, holds, List.head?_cons]
              exact fun _ _ => .clash (fun _ => rfl) hat hatOld hcongruent
          | true =>
              have hrest : s.lexems.drop (index + 1) = lexems := by simpa using congrArg List.tail hlexems
              have hrestOld : s'.lexems.drop (index + 1) = olds := by simpa using congrArg List.tail holds
              exact .bind (diffLexemBy_tells hrender hdiff _ c index lexem old hcongruent hslot) fun slot' hslot' =>
                .bind (ih (index + 1) lexems hrest hrestOld (Nat.succ.inj hlength)) fun slots' hslots' =>
                  .pure (.cons hslot' hslots')

theorem diffPhraseBy_tells (c : Cursor) (phrase : Phrase) (previous : Rendered) (h : e.Fitted previous) :
    Tells e (fun q => diffPhraseBy b q render (diff q) e c phrase previous) e.Fitted := by
  unfold diffPhraseBy
  split
  · exact .pure h
  · dsimp only
    split
    · exact .bind (Q := fun _ => False) (.fail rfl) fun _ => False.elim
    · next hlength =>
      exact .bind (diffLexemsBy_tells hrender hdiff _ _ c 0 _ _ _ rfl rfl (not_not.mp hlength) h.keeps) fun _ hslots =>
        .pure (.of_keeps hslots)

end Diffing

/-- A diff of an output that fits leaves one that fits, and tells of two lexems only if they are not congruent. -/
theorem diffWithinBy_tells (depth : Nat) (c : Cursor) (phrase : Phrase) (previous : Rendered) (h : e.Fitted previous) :
    Tells e (fun q => diffWithinBy b q depth e c phrase previous) e.Fitted := by
  induction depth generalizing c phrase previous with
  | zero => exact fun _ _ => .trouble fun _ => rfl
  | succ depth ih => exact diffPhraseBy_tells (renderWithin_tells b depth) ih c phrase previous h

/-- The outputs that are retained in a run of successful passes of one engine. Nothing has been mounted when a run begins,
and between two passes the host and the world may change in any way. -/
inductive Tenure (e : Engine) : List Rendered → Stage ω → Prop
  | start (h : Host) (w : ω) : Tenure e [] ⟨h, #[], w⟩
  | outside {rs : List Rendered} {σ : Stage ω} (h : Host) (w : ω) (hrun : Tenure e rs σ) : Tenure e rs ⟨h, σ.instances, w⟩
  | render {rs : List Rendered} {σ σ' : Stage ω} {p : NodeId} {s : Sentence} {r : Rendered} (hrun : Tenure e rs σ)
      (hpass : e.render b p s σ = .ok r σ') : Tenure e (rs ++ [r]) σ'
  | diff {before after : List Rendered} {σ σ' : Stage ω} {p : NodeId} {s : Sentence} {previous r : Rendered}
      (hrun : Tenure e (before ++ previous :: after) σ) (hpass : e.diff b p s previous σ = .ok r σ') :
      Tenure e (before ++ r :: after) σ'
  | update {rs : List Rendered} {σ σ' : Stage ω} {id : InstanceId} (hrun : Tenure e rs σ)
      (hpass : updateComponent b id σ = .ok () σ') : Tenure e rs σ'
  | remove {before after : List Rendered} {σ σ' : Stage ω} {p : NodeId} {r : Rendered}
      (hrun : Tenure e (before ++ r :: after) σ) (hpass : remove b p r σ = .ok () σ') : Tenure e (before ++ after) σ'

variable {b}

theorem diffBy_plain (e : Engine) (p : NodeId) (s : Sentence) (previous : Rendered) :
    e.diffBy b .plain p s previous = e.diff b p s previous := by
  rw [diffBy, diffWithinBy_plain]
  rfl

theorem updateComponentBy_plain (id : InstanceId) : updateComponentBy b .plain id = updateComponent b id := by
  rw [updateComponentBy, diffWithinBy_plain]
  rfl

theorem diffBy_tells (p : NodeId) (s : Sentence) {previous : Rendered} (h : e.Fitted previous) :
    Tells e (fun q => e.diffBy b q p s previous) e.Fitted := diffWithinBy_tells b depthLimit _ _ previous h

theorem updateComponentBy_tells (id : InstanceId) : Tells e (fun q => updateComponentBy b q id) fun _ => True :=
  update_tells (diffWithinBy_tells b depthLimit) id

/-- Every pass keeps all outputs fitting. -/
theorem Tenure.sound {rs : List Rendered} {σ : Stage ω} (h : Tenure b e rs σ) : e.Sound σ ∧ ∀ r ∈ rs, e.Fitted r := by
  induction h with
  | start => exact ⟨fun n i hi => by simp at hi, nofun⟩
  | outside _ _ _ ih => exact ih
  | render _ hpass ih =>
      obtain ⟨hsound, hr⟩ := (renderWithin_tells b depthLimit _ _).ok .plain ih.1 hpass
      exact ⟨hsound, by simpa [or_imp, forall_and, hr] using ih.2⟩
  | diff _ hpass ih =>
      obtain ⟨hsound, hr⟩ := (diffBy_tells _ _ (ih.2 _ (by simp))).ok .plain ih.1 ((diffBy_plain ..).symm ▸ hpass)
      refine ⟨hsound, fun r' hr' => ?_⟩
      rcases List.mem_append.mp hr' with hr' | hr'
      · exact ih.2 r' (List.mem_append_left _ hr')
      · rcases List.mem_cons.mp hr' with rfl | hr'
        · exact hr
        · exact ih.2 r' (by simp [hr'])
  | update _ hpass ih =>
      exact ⟨((updateComponentBy_tells _).ok .plain ih.1 ((updateComponentBy_plain (b := b) _).symm ▸ hpass)).1, ih.2⟩
  | remove _ hpass ih =>
      refine ⟨((teardown_tells b _ _).ok .plain ih.1 hpass).1, fun r' hr' => ih.2 r' ?_⟩
      rcases List.mem_append.mp hr' with hr' | hr' <;> simp [hr']

/-- In a run of successful passes every output fits, at any depth and in every component: it has a slot for each lexem, of
the kind that its strategy leaves. So no pass comes to a fall-back, and two lexems are found not congruent only where
their words or namespaces differ. -/
theorem tenure_fits {rs : List Rendered} {σ : Stage ω} (h : Tenure b e rs σ) :
    (∀ r ∈ rs, e.Fitted r) ∧
      (∀ (n : Nat) (i : Instance) (r : Rendered), σ.instances[n]? = some i → i.developed = some r → e.Fitted r) ∧
      (∀ p s err σ', e.render b p s σ = .error (.error err) σ' → err.isIncongruent = false) ∧
      (∀ p s, ∀ previous ∈ rs, e.diffBy b .plain p s previous = e.diff b p s previous ∧
        Candid (fun q => e.diffBy b q p s previous) σ) ∧
      ∀ id, updateComponentBy b .plain id = updateComponent b id ∧ Candid (fun q => updateComponentBy b q id) σ := by
  obtain ⟨hsound, hfitted⟩ := h.sound
  refine ⟨hfitted, fun n i r hi hr => (hsound n i hi).2 r hr, fun p s err σ' hpass => ?_, fun p s previous hprevious => ?_,
    fun id => ?_⟩
  · exact (renderWithin_tells b depthLimit (Cursor.root p) (.new s)).mild hsound hpass
  · exact ⟨diffBy_plain e p s previous, (diffBy_tells p s (hfitted previous hprevious)).candid hsound⟩
  · exact ⟨updateComponentBy_plain id, (updateComponentBy_tells id).candid hsound⟩

/-- A text in whose place markup is to come: the output of the text fits, and the two words are what the diff tells of. -/
theorem tenure_fits_text :
    let previous : Sentence := .plain [("text", [.str "a"])]
    let next : Sentence := .plain [("html", [.str "b"])]
    ∃ (r : Rendered) (σ₁ σ₂ : Stage Unit), Tenure Behaviour.inert plain [r] σ₁ ∧ plain.Fitted r ∧
      plain.render Behaviour.inert Host.root previous ⟨.new, #[], ()⟩ = .ok r σ₁ ∧
      plain.diff Behaviour.inert Host.root next r σ₁ = .error (.error (.incongruent 0 "ui:text" "ui:html")) σ₂ ∧
      ∃ (s s' : Sentence) (lexem old : Lexem), lexem.qualified = "ui:html" ∧ old.qualified = "ui:text" ∧
        ∀ q : Objections, plain.diffBy Behaviour.inert q Host.root next r σ₁ =
          .error (.error (q.clash s s' 0 lexem old)) σ₂ := by
  intro previous next
  have hcheck : (plain.render Behaviour.inert Host.root previous).check ⟨.new, #[], ()⟩ (fun r σ₁ =>
      match plain.diff Behaviour.inert Host.root next r σ₁ with
      | .error (.error err) _ => err = .incongruent 0 "ui:text" "ui:html"
      | _ => false) = true := by decide +kernel
  obtain ⟨r, σ₁, hrender, hdiff⟩ := exists_of_check hcheck
  split at hdiff
  · next err σ₂ hrun =>
    obtain rfl := of_decide_eq_true hdiff
    have htenure : Tenure Behaviour.inert plain [r] σ₁ := .render (.start .new ()) hrender
    obtain ⟨hfitted, -, -, hdiffs, -⟩ := tenure_fits htenure
    have hr := hfitted r List.mem_cons_self
    obtain ⟨hplain, hcandid⟩ := hdiffs Host.root next r List.mem_cons_self
    obtain ⟨s, s', lexem, old, -, -, -, hfound, hexpected, hclash⟩ := hcandid.clash (hplain ▸ hrun)
    exact ⟨r, σ₁, σ₂, htenure, hr, hrender, hrun, s, s', lexem, old, hfound.symm, hexpected.symm, hclash⟩
  · cases hdiff

end Engine

end Parlance
