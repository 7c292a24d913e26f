import Parlance.Proofs.Engine.Repainting
import Parlance.Proofs.Engine.Tidiness

/-! Passes that succeed keep outputs sound, and each is a repaint of what was there before. A rendering brings
outputs out of nothing; a diff brings outputs to other phrases, and if the two are tidy, they show afterwards what
the new ones say. As ever this is gone through lexem by lexem, with one case for every way in which a step can go,
and then by induction on how deep a pass may go. -/

namespace Parlance

open Pass

theorem Lexem.callbackArg_ok {lexem : Lexem} {f : Identity} :
    lexem.callbackArg = .ok f ↔ lexem.arg 0 = .callback f := by
  unfold Lexem.callbackArg Lexem.invalid
  cases lexem.arg 0 <;> simp

/-- Words that put entries run nothing. -/
theorem Lexem.writes_still {lexem : Lexem} {i : Instruction} {ws : List Write} (h : lexem.writes i = some ws) :
    i.unfolds = false := by
  cases i <;> first | rfl | cases h

variable {ω : Type} {b : Behaviour ω} {P : Purity b} {e : Engine} {p : NodeId} {n : Nat} {w w' : ω}
variable {σ σ₁ σ' : Stage ω} {lexem old : Lexem} {slot slot' : Slot}
variable {phrases phrases' : List Phrase} {r : Rendered} {rs rs' olds olds' : List Rendered}

variable (P e) in
/-- Sound outputs, as parts of a slot. -/
structure Sprung (w : ω) (n : Nat) (rs : List Rendered) : Prop where
  named : ∀ r ∈ rs, ∀ i, r.identity = some i → P.alike w (.sentence i r.sentence) (.sentence i r.sentence)
  deep : rs ≠ [] → 0 < n
  paired : ∀ r ∈ rs, r.Paired
  grown : Grown P e w (n - 1) (lexemsOf rs) (slotsOf rs)

namespace Sprung

theorem nil : Sprung P e w n [] := ⟨by simp, by simp, by simp, .nil⟩

theorem mono (h : Sprung P e w n rs) (hlater : P.later w w') : Sprung P e w' n rs :=
  ⟨fun r hr i hi => P.mono hlater (h.named r hr i hi), h.deep, h.paired, h.grown.mono hlater⟩

theorem append (h : Sprung P e w n rs) (h' : Sprung P e w n rs') : Sprung P e w n (rs ++ rs') := by
  refine ⟨fun r hr => ?_, fun hne => ?_, fun r hr => ?_, ?_⟩
  · exact (List.mem_append.mp hr).elim (h.named r) (h'.named r)
  · by_cases hrs : rs = []
    · exact h'.deep (by simpa [hrs] using hne)
    · exact h.deep hrs
  · exact (List.mem_append.mp hr).elim (h.paired r) (h'.paired r)
  · rw [lexemsOf_append, slotsOf_append]
    exact h.grown.append h'.grown

theorem split (h : Sprung P e w n (rs ++ rs')) : Sprung P e w n rs ∧ Sprung P e w n rs' := by
  have hgrown := h.grown
  rw [lexemsOf_append, slotsOf_append] at hgrown
  have hpaired : ∀ r ∈ rs, r.Paired := fun r hr => h.paired r (List.mem_append_left _ hr)
  obtain ⟨hgrown₁, hgrown₂⟩ := hgrown.split (length_lexemsOf hpaired)
  exact ⟨⟨fun r hr => h.named r (List.mem_append_left _ hr), fun hne => h.deep (by simp [hne]), hpaired, hgrown₁⟩,
    ⟨fun r hr => h.named r (List.mem_append_right _ hr), fun hne => h.deep (by simp [hne]),
      fun r hr => h.paired r (List.mem_append_right _ hr), hgrown₂⟩⟩

theorem uncons (h : Sprung P e w n (r :: rs)) : Sprung P e w n [r] ∧ Sprung P e w n rs := by
  rw [← List.singleton_append] at h
  exact h.split

end Sprung

/-- The parts of a slot that has grown soundly. -/
theorem Grown.sprung (h : Grown P e w n [lexem] [slot]) : Sprung P e w n slot.parts := by
  cases h with
  | cons hroot hinner _ => exact ⟨hroot.named, hroot.deep, hroot.paired, hinner⟩

theorem Grown.root (h : Grown P e w n [lexem] [slot]) : Rooted P e w n lexem slot := by
  cases h with
  | cons hroot _ _ => exact hroot

/-- A slot is sound if its lexem unfolds to phrases like those that its parts came of. -/
theorem Grown.single (hfits : e.Fits lexem slot) (hknown : lexem.Alike (P.alike w) lexem)
    (hyields : P.Yields e w lexem phrases)
    (hlike : List.Forall₂ (Phrase.Alike (P.alike w)) phrases (slot.parts.map Rendered.phrase))
    (hsprung : Sprung P e w n slot.parts) : Grown P e w n [lexem] [slot] :=
  .cons ⟨hfits, hknown, hyields.alike hlike, hsprung.deep, hsprung.paired, hsprung.named⟩ hsprung.grown .nil

variable (P e p n) in
/-- Outputs have been brought to phrases, and the parent shows the new ones instead of the old ones. -/
structure Brought (σ : Stage ω) (olds : List Rendered) (phrases : List Phrase) (σ' : Stage ω) (rs : List Rendered) :
    Prop where
  later : P.later σ.world σ'.world
  like : List.Forall₂ (Phrase.Alike (P.alike σ'.world)) phrases (rs.map Rendered.phrase)
  sprung : Sprung P e σ'.world n rs
  repaint : Repaint e p [] σ.host (lexemsOf olds) (slotsOf olds) σ'.host (lexemsOf rs) (slotsOf rs)

variable (P e p n) in
/-- Slots have come in the place of others, and the parent shows them instead. -/
structure Replaced (σ : Stage ω) (olds : List Lexem) (slots : List Slot) (σ' : Stage ω) (lexems : List Lexem)
    (slots' : List Slot) : Prop where
  later : P.later σ.world σ'.world
  grown : Grown P e σ'.world n lexems slots'
  repaint : Repaint e p [] σ.host olds slots σ'.host lexems slots'

namespace Brought

/-- No output has been brought to no phrase. -/
theorem nothing (hlater : P.later σ.world σ'.world) (hsame : Host.SameContents σ.host σ'.host) :
    Brought P e p n σ [] [] σ' [] := ⟨hlater, .nil, .nil, .keep hsame⟩

/-- Outputs brought to phrases one after the other. The first leaves the places of the second alone. -/
theorem append (hpaired : ∀ r ∈ olds, r.Paired)
    (hclear : Clear (e.rowsOfSlots (lexemsOf olds) (slotsOf olds)) (e.rowsOfSlots (lexemsOf olds') (slotsOf olds')))
    (hclear' : Clear (e.rowsOfSlots (lexemsOf rs) (slotsOf rs)) (e.rowsOfSlots (lexemsOf olds') (slotsOf olds')))
    (h : Brought P e p n σ olds phrases σ₁ rs) (h' : Brought P e p n σ₁ olds' phrases' σ' rs') :
    Brought P e p n σ (olds ++ olds') (phrases ++ phrases') σ' (rs ++ rs') := by
  refine ⟨P.trans h.later h'.later, ?_, (h.sprung.mono h'.later).append h'.sprung, ?_⟩
  · rw [List.map_append]
    exact List.rel_append (Purity.phrases_mono h'.later h.like) h'.like
  · rw [lexemsOf_append, slotsOf_append, lexemsOf_append, slotsOf_append]
    refine .append (length_lexemsOf hpaired) (length_lexemsOf h.sprung.paired) hclear'.covered ?_ h'.repaint
    rw [List.append_nil]
    exact h.repaint.reserve hclear hclear'

/-- Something new is brought after what is there. -/
theorem append_new (h : Brought P e p n σ [] phrases σ₁ rs) (h' : Brought P e p n σ₁ [] phrases' σ' rs') :
    Brought P e p n σ [] (phrases ++ phrases') σ' (rs ++ rs') :=
  h.append (by simp) (by simpa [Engine.rowsOfSlots] using .none) (by simpa [Engine.rowsOfSlots] using .none) h'

/-- Outputs are gone before others are brought. -/
theorem trans_gone (h : Brought P e p n σ olds [] σ₁ []) (h' : Brought P e p n σ₁ [] phrases σ' rs) :
    Brought P e p n σ olds phrases σ' rs :=
  ⟨P.trans h.later h'.later, h'.like, h'.sprung, h.repaint.trans (by simp [Engine.rowsOfSlots]) h'.repaint⟩

end Brought

namespace Replaced

variable {lexems lexems₂ lexems' lexems₂' : List Lexem} {slots slots₂ slots' slots₂' : List Slot}

/-- Slots replaced one after the other. -/
theorem append (hlength : lexems.length = slots.length)
    (hclear : Clear (e.rowsOfSlots lexems slots) (e.rowsOfSlots lexems₂ slots₂))
    (hclear' : Clear (e.rowsOfSlots lexems' slots') (e.rowsOfSlots lexems₂ slots₂))
    (h : Replaced P e p n σ lexems slots σ₁ lexems' slots')
    (h' : Replaced P e p n σ₁ lexems₂ slots₂ σ' lexems₂' slots₂') :
    Replaced P e p n σ (lexems ++ lexems₂) (slots ++ slots₂) σ' (lexems' ++ lexems₂') (slots' ++ slots₂') := by
  refine ⟨P.trans h.later h'.later, (h.grown.mono h'.later).append h'.grown, ?_⟩
  refine .append hlength h.grown.length_eq hclear'.covered ?_ h'.repaint
  rw [List.append_nil]
  exact h.repaint.reserve hclear hclear'

section Slot

variable (hknown : lexem.Alike (P.alike σ.world) lexem) (hunfolds : e.Unfolds b lexem σ.world phrases w)
include hknown hunfolds

/-- What a lexem unfolds to is brought, and then the nodes that end its slot are put. -/
theorem born (hfits : e.Fits lexem slot) (hplain : slot.Plain) (hentries : slot ≠ .attribute)
    (hparts : List.Forall₂ (Phrase.Alike (P.alike w)) phrases phrases →
      Brought P e p n (σ.inWorld w) [] phrases σ₁ slot.parts)
    (hworld : σ'.world = σ₁.world) (hadds : Adds p σ₁.host slot.ends (e.endKinds lexem slot) σ'.host) :
    Replaced P e p n σ [] [] σ' [lexem] [slot] := by
  obtain ⟨hlater, hphrases, hyields⟩ := Purity.yields_of_unfolds hknown hunfolds
  have hbrought := hparts hphrases
  have hwhole := P.trans hlater hbrought.later
  refine ⟨hworld ▸ hwhole, ?_, .born hplain (Engine.ownRows_silent hentries) hbrought.sprung.paired
    hbrought.repaint hadds⟩
  rw [hworld]
  exact .single hfits (Purity.lexem_mono hwhole hknown) (hyields.mono hbrought.later) hbrought.like hbrought.sprung

/-- The parts of a slot are brought to what its lexem unfolds to now. -/
theorem part (hold : Grown P e σ.world n [old] [slot]) (hfits : e.Fits lexem slot') (hplain : slot.Plain)
    (hplain' : slot'.Plain) (hends : slot'.ends = slot.ends) (hkinds : e.endKinds lexem slot' = e.endKinds old slot)
    (hentries : slot ≠ .attribute) (hentries' : slot' ≠ .attribute)
    (hparts : List.Forall₂ (Phrase.Alike (P.alike w)) phrases phrases →
      Brought P e p n (σ.inWorld w) slot.parts phrases σ' slot'.parts) :
    Replaced P e p n σ [old] [slot] σ' [lexem] [slot'] := by
  obtain ⟨hlater, hphrases, hyields⟩ := Purity.yields_of_unfolds hknown hunfolds
  have hbrought := hparts hphrases
  have hwhole := P.trans hlater hbrought.later
  refine ⟨hwhole, .single hfits (Purity.lexem_mono hwhole hknown) (hyields.mono hbrought.later) hbrought.like
    hbrought.sprung, ?_⟩
  exact .part hplain hplain' hends hkinds (Engine.ownRows_silent hentries) (Engine.ownRows_silent hentries')
    hold.sprung.paired hbrought.sprung.paired hbrought.repaint

end Slot

end Replaced

section Rendering

variable {render : Cursor → Phrase → Pass ω Rendered} {c : Cursor}

variable (P e n) in
/-- Rendering as deep as one likes brings outputs that are sound at a level. -/
def RenderKeeps (render : Cursor → Phrase → Pass ω Rendered) : Prop :=
  ∀ ⦃c phrase σ r σ'⦄, render c phrase σ = .ok r σ' → phrase.Alike (P.alike σ.world) phrase → Bare r.slots →
    Brought P e c.parent n σ [] [phrase] σ' [r]

theorem chain_brought (hrender : RenderKeeps P e n render)
    (hknown : List.Forall₂ (Phrase.Alike (P.alike σ.world)) phrases phrases) (hbare : Bare (slotsOf rs))
    (h : Chain (render c) phrases σ rs σ') : Brought P e c.parent n σ [] phrases σ' rs := by
  induction h with
  | nil => exact .nothing (P.refl _) (.refl _)
  | cons head _ ih =>
      cases hknown with
      | cons hphrase hknown =>
      have hfirst := hrender head hphrase hbare.split.1
      exact hfirst.append_new (ih (Purity.phrases_mono hfirst.later hknown) hbare.split.2)

namespace Engine

theorem choice_unfolds {i : Instruction} {label : String} {m : Pass ω (Option Phrase)} {chosen : Option Phrase}
    (hspace : e.isTarget lexem.space = true) (hword : e.instruction? lexem = some i)
    (hchoice : e.choice b lexem i = some (label, m)) (hchosen : m σ = .ok chosen (σ.inWorld w)) :
    e.Unfolds b lexem σ.world chosen.toList w ∧ (i = .ifElse ∨ i = .switchUse) ∧ e.choiceLabel lexem = label := by
  have hworld : ∀ {w'}, σ.inWorld w = σ.inWorld w' → w' = w := fun heq => (congrArg Stage.world heq).symm
  cases i <;> cases hchoice
  · obtain ⟨w', hchooses, heq⟩ := chosenPhrase_ok hchosen
    exact ⟨.chosen hspace hword (hworld heq ▸ hchooses), .inl rfl, by rw [choiceLabel, if_pos hword]⟩
  · obtain ⟨w', hswitches, heq⟩ := switchedPhrase_ok hchosen
    exact ⟨.switched hspace hword (hworld heq ▸ hswitches), .inr rfl, by simp [choiceLabel, hword]⟩

theorem eachPhrases_unfolds (hspace : e.isTarget lexem.space = true) (hword : e.instruction? lexem = some .each)
    (hphrases : eachPhrases b lexem σ = .ok phrases (σ.inWorld w)) : e.Unfolds b lexem σ.world phrases w := by
  obtain ⟨w', hlists, heq⟩ := eachPhrases_ok hphrases
  obtain rfl : w' = w := (congrArg Stage.world heq).symm
  exact .listed hspace hword hlists

theorem develop_unfolds {s : Sentence} (hspace : e.isTarget lexem.space = true) (hword : e.instruction? lexem = none)
    (hdevelop : e.develop b lexem σ = .ok s (σ.inWorld w)) : e.Unfolds b lexem σ.world [.new s] w := by
  obtain ⟨w', hdevelops, heq⟩ := develop_ok hdevelop
  obtain rfl : w' = w := (congrArg Stage.world heq).symm
  exact .developed hspace hword hdevelops

end Engine

/-- Rendering a lexem brings a sound slot. -/
theorem Engine.RenderStep.replaced (hrender : RenderKeeps P e n render) (hknown : lexem.Alike (P.alike σ.world) lexem)
    (hbare : Bare [slot]) (h : Engine.RenderStep b render e c lexem σ slot σ') :
    Replaced P e c.parent n σ [] [] σ' [lexem] [slot] := by
  have hnothing : ∀ w : ω, Brought P e c.parent n (σ.inWorld w) [] [] (σ.inWorld w) [] := fun _ =>
    .nothing (P.refl _) (.refl _)
  cases h with
  | skipped hspace =>
      exact .born hknown (.foreign hspace) (.skipped hspace) trivial (by simp) (fun _ => hnothing _) rfl (.none (.refl _))
  | compound hspace hword hdevelop hinner =>
      refine .born hknown (Engine.develop_unfolds hspace hword hdevelop) (.compound hspace hword) trivial (by simp)
        (fun hphrases => ?_) rfl (.none (.refl _))
      cases hphrases with
      | cons hphrase _ => exact hrender hinner hphrase hbare.parts.split.1
  | @«attribute» i ws hspace hword hwrites =>
      obtain ⟨-, -, hyields⟩ := Purity.yields_of_unfolds hknown (.still hspace hword (Lexem.writes_still hwrites))
      refine ⟨P.refl _, .single (.attribute hspace hword hwrites) hknown hyields .nil .nil, .put fun hp => ?_⟩
      rw [Engine.entries_eq hword hwrites]
      exact Host.writeAll_touches hp ws
  | text hspace hword =>
      exact .born hknown (.still hspace hword rfl) (.text hspace hword) trivial (by simp) (fun _ => hnothing _) rfl
        (.one (Host.putNode_makes _ _ _ _ _))
  | element hspace hword htag hphrases hinner =>
      obtain ⟨-, hphrases', hyields⟩ := Purity.yields_of_unfolds hknown (.children hspace hword hphrases)
      have hbrought := chain_brought (c := c.inside _) (σ := σ.onHost (·.putElement c _)) hrender hphrases' hbare.parts
        hinner
      refine ⟨hbrought.later, .single (.element hspace hword htag) (Purity.lexem_mono hbrought.later hknown)
        (hyields.mono hbrought.later) hbrought.like hbrought.sprung, ?_⟩
      refine .bornElement ?_ (Host.putNode_makes _ _ _ _ _) hbrought.sprung.paired hbrought.repaint
      rw [Lexem.stringArg_ok.mp htag]
      rfl
  | listener hspace hword hevent hlistener =>
      exact .born hknown (.still hspace hword rfl) (.listener hspace hword hevent hlistener) trivial (by simp)
        (fun _ => hnothing _) rfl (.none (.addListener _ _ _ _))
  | branch hspace hword hchoice hchosen hinner =>
      obtain ⟨hunfolds, hi, hlabel⟩ := Engine.choice_unfolds hspace hword hchoice hchosen
      refine .born hknown hunfolds (.branch hspace hword hi) trivial (by simp)
        (fun hphrases => chain_brought hrender hphrases hbare.parts hinner) rfl ?_
      simp only [Engine.endKinds, Engine.ownRows, hlabel]
      exact .one (Host.putNode_makes _ _ _ _ _)
  | each hspace hword hphrases hinner =>
      exact .born hknown (Engine.eachPhrases_unfolds hspace hword hphrases) (.each hspace hword) trivial (by simp)
        (fun hphrases => chain_brought hrender hphrases hbare.parts hinner) rfl (.one (Host.putNode_makes _ _ _ _ _))
  | raw hspace hword =>
      exact .born hknown (.still hspace hword rfl) (.raw hspace hword) trivial (by simp) (fun _ => hnothing _) rfl
        ((Adds.one (Host.insertRaw_makes _ _ _ _)).trans (.one (Host.putNode_makes _ _ _ _ _)))
  | hook => exact (Bare.not_hook hbare).elim
  | callback hspace hword hcallback hcall =>
      have hunfolds : e.Unfolds b lexem σ.world [] _ := .called hspace hword (Lexem.callbackArg_ok.mp hcallback) hcall
      exact .born hknown hunfolds (.callback hspace hword hcallback) trivial (by simp) (fun _ => hnothing _) rfl
        (.none (.refl _))
  | name hspace hword hname =>
      obtain ⟨t, rfl, -, -⟩ := nameNode_ok hname
      exact .born hknown (.still hspace hword rfl) (.name hspace hword) trivial (by simp) (fun _ => hnothing _) rfl
        (.none (.refl _))
  | component => exact (Bare.not_component hbare).elim

end Rendering

end Parlance
