import Parlance.Proofs.Engine.Upkeep

/-! Diffs bring sound outputs to other phrases. What is left alone is left alone because its arguments count as
unchanged, and then it would unfold to the same again; whatever is gone into is matched part by part, and what is
left over is removed. -/

namespace Parlance

open Pass

variable {ω : Type} {b : Behaviour ω} {P : Purity b} {e : Engine} {p : NodeId} {n : Nat} {w w₀ : ω}
variable {σ σ₁ σ' : Stage ω} {lexem old : Lexem} {slot slot' : Slot} {h h' : Host}
variable {lexems olds : List Lexem} {slots slots' : List Slot} {phrases : List Phrase} {rs rest previous : List Rendered}

namespace Purity

/-- Arguments that count as unchanged one by one are alike. -/
theorem args_same {args olds : List Arg} (hargs : List.Forall₂ (P.alike w) args args)
    (holds : List.Forall₂ (P.alike w) olds olds) (hlength : args.length = olds.length)
    (hsame : (args.zip olds).any (fun p => !p.1.same p.2) = false) : List.Forall₂ (P.alike w) args olds := by
  rw [List.forall₂_same] at hargs holds
  refine List.forall₂_iff_zip.mpr ⟨hlength, fun hmem => ?_⟩
  obtain ⟨ha, ha'⟩ := List.of_mem_zip hmem
  have hkept := List.any_eq_false.mp hsame _ hmem
  exact P.same (hargs _ ha) (holds _ ha') (by simpa using hkept)

section Unchanged

variable (hknown : lexem.Alike (P.alike w) lexem) (hold : old.Alike (P.alike w) old)
  (hcongruent : lexem.isCongruent old = true)
include hknown hold hcongruent

theorem alike_of_unchanged (hargs : lexem.argsChanged old = false) : lexem.Alike (P.alike w) old := by
  simp only [Lexem.isCongruent, Bool.and_eq_true, decide_eq_true_eq] at hcongruent
  simp only [Lexem.argsChanged, Bool.or_eq_false_iff, decide_eq_false_iff_not, ne_eq, not_not] at hargs
  exact ⟨hcongruent.2, hcongruent.1, args_same hknown.args hold.args hargs.1 hargs.2⟩

/-- A word whose packed list counts as unchanged serves in the place of the one before. -/
theorem serves_of_unchanged (hpacks : e.packs lexem = true) (hargs : lexem.packedChanged old = false) :
    e.Serves (P.alike w) lexem old := by
  have hserves : lexem.argsChanged old = false → e.Serves (P.alike w) lexem old := fun h =>
    .of_alike (P.likeness w) (alike_of_unchanged hknown hold hcongruent h)
  have hR := (P.likeness w).conformity
  simp only [Lexem.isCongruent, Bool.and_eq_true, decide_eq_true_eq] at hcongruent
  simp only [Lexem.packedChanged] at hargs
  split at hargs
  · cases hargs
  next hhead =>
  rw [Bool.not_eq_true, Bool.not_eq_false'] at hhead
  split at hargs
  next i items i' items' hitems hitems' =>
    simp only [Bool.or_eq_false_iff, decide_eq_false_iff_not, ne_eq, not_not] at hargs
    refine ⟨hcongruent.2, hcongruent.1, fun hunpacked => by simp [hpacks] at hunpacked, fun _ => ?_⟩
    have hlist := (hR.conforms (hR.arg hknown 1)).items
    have hlist' := (hR.conforms (hR.arg hold 1)).items
    rw [hitems] at hlist ⊢
    rw [hitems'] at hlist' ⊢
    exact ⟨P.same (hR.arg hknown 0) (hR.arg hold 0) hhead, args_same hlist hlist' hargs.1 hargs.2⟩
  next => exact hserves hargs

end Unchanged

end Purity

/-- Slots are gone, and so are the entries that they had put. -/
theorem Repaint.gone (htouches : p.index < h.count → Host.Touches p (fun π =>
    if π ∈ placesOf (e.rowsOfSlots lexems slots) then none else (h.content p).held π) h h') :
    Repaint e p [] h lexems slots h' [] [] := by
  intro nodes hdepicts hground
  have hgone := htouches hground.parent
  refine ⟨[], .nil, ⟨by simp, ?_⟩, Nat.le_of_eq hgone.count.symm, by simp, hgone.kind,
    fun m _ hm _ => hgone.others m hm, by simp, fun π _ _ => ?_, fun _ => hgone.roomy⟩
  · intro m hm
    rw [List.mem_singleton.mp hm, hgone.count]
    exact hground.parent
  · rw [hgone.held]
    by_cases hπ : π ∈ placesOf (e.rowsOfSlots lexems slots)
    · obtain ⟨value, hvalue⟩ := shownAt_of_mem hπ
      simp [hπ, hvalue, overlay, Engine.rowsOfSlots]
    · simp [hπ, shownAt_eq_none.mpr hπ, overlay, Engine.rowsOfSlots]

/-- Removing outputs erases the entries that they had put, and nothing happens in the world. -/
theorem sweep_erases (hsprung : Sprung P e w n rs) (h : Sweep (teardown b p) rs σ σ') :
    σ'.world = σ.world ∧ (p.index < σ.host.count → Host.Touches p (fun π =>
      if π ∈ placesOf (e.rowsOfSlots (lexemsOf rs) (slotsOf rs)) then none else (σ.host.content p).held π)
      σ.host σ'.host) := by
  induction h with
  | nil => exact ⟨rfl, fun _ => by simpa [Engine.rowsOfSlots] using Host.Touches.none _ p⟩
  | @cons r rs σ σ₁ σ' head _ ih =>
      obtain ⟨hr, hrs⟩ := hsprung.uncons
      have hgrown : Grown P e w (n - 1) r.sentence.lexems r.slots := by simpa using hr.grown
      have hpaired : r.Paired := hr.paired r (by simp)
      rw [teardown_bare hgrown.bare head] at ih
      obtain ⟨hworld, hrest⟩ := ih hrs
      refine ⟨hworld, fun hp => ?_⟩
      have hfirst := detachSlots_erases (detachComponent σ.instances σ.instances.size) hgrown hp
      rw [← detachWith_eq] at hfirst
      have hboth := hfirst.trans (hrest (hfirst.count ▸ hp))
      refine ⟨hboth.count, hboth.others, hboth.kind, fun π => (hboth.held π).trans ?_, hboth.childless⟩
      simp only [Stage.onHost, hfirst.held]
      rw [lexemsOf_cons, slotsOf_cons, Engine.rowsOfSlots_append hpaired.symm, placesOf_append]
      by_cases hπ : π ∈ placesOf (e.rowsOfSlots r.sentence.lexems r.slots) <;> simp [hπ]

theorem sweep_brought (hsprung : Sprung P e σ.world n rs) (h : Sweep (teardown b p) rs σ σ') :
    Brought P e p n σ rs [] σ' [] := by
  obtain ⟨hworld, herases⟩ := sweep_erases hsprung h
  exact ⟨hworld ▸ P.refl _, .nil, .nil, .gone herases⟩

section Matching

variable {render : Cursor → Phrase → Pass ω Rendered} {diff : Engine → Cursor → Phrase → Rendered → Pass ω Rendered}
variable {kept : Phrase → Rendered → Stage ω → Rendered → Stage ω → Prop} {c : Cursor}

variable (P e p n) in
/-- A way of going on from an output, from a world on: if the two are tidy, it brings the one to the phrase that
the other is for. -/
def Mends (w₀ : ω) (kept : Phrase → Rendered → Stage ω → Rendered → Stage ω → Prop) : Prop :=
  ∀ ⦃phrase old σ r σ'⦄, kept phrase old σ r σ' → P.later w₀ σ.world → phrase.Alike (P.alike σ.world) phrase →
    Sprung P e σ.world n [old] → Bare r.slots → r.Paired ∧ r.sentence.lexems.length = old.sentence.lexems.length ∧
      (Tidy e old.sentence.lexems old.slots r.sentence.lexems r.slots → Brought P e p n σ [old] [phrase] σ' [r])

variable (P e n) in
/-- Diffing as deep as one likes keeps outputs sound at a level. -/
def DiffKeeps (diff : Cursor → Phrase → Rendered → Pass ω Rendered) : Prop :=
  ∀ c w₀, Mends P e c.parent n w₀ fun phrase old σ r σ' => diff c phrase old σ = .ok r σ'

/-- What is matched leaves the places of what is left over alone. -/
theorem matching_brought (hrender : RenderKeeps P e n render) (hmends : Mends P e c.parent n w₀ kept)
    (hlater : P.later w₀ σ.world) (hknown : List.Forall₂ (Phrase.Alike (P.alike σ.world)) phrases phrases)
    (hsprung : Sprung P e σ.world n previous) (hbare : Bare (slotsOf rs))
    (htidy : Tidy e (lexemsOf previous) (slotsOf previous) (lexemsOf rs) (slotsOf rs))
    (h : Engine.Matching (fun phrase σ r σ' => render c phrase σ = .ok r σ') kept phrases previous σ rs rest σ') :
    ∃ matched, previous = matched ++ rest ∧ Brought P e c.parent n σ matched phrases σ' rs ∧
      Clear (e.rowsOfSlots (lexemsOf matched) (slotsOf matched)) (e.rowsOfSlots (lexemsOf rest) (slotsOf rest)) ∧
      Clear (e.rowsOfSlots (lexemsOf rs) (slotsOf rs)) (e.rowsOfSlots (lexemsOf rest) (slotsOf rest)) := by
  induction h with
  | rest => exact ⟨[], rfl, .nothing (P.refl _) (.refl _), by simpa [Engine.rowsOfSlots] using .nil,
      by simpa [Engine.rowsOfSlots] using .nil⟩
  | new head _ ih =>
      cases hknown with
      | cons hphrase hknown =>
      have hfirst := hrender head hphrase hbare.split.1
      obtain ⟨matched, hmatched, hrest, -, -⟩ := ih (P.trans hlater hfirst.later)
        (Purity.phrases_mono hfirst.later hknown) .nil hbare.split.2 .fresh
      obtain ⟨rfl, rfl⟩ := List.append_eq_nil_iff.mp hmatched.symm
      exact ⟨[], rfl, hfirst.append_new hrest, by simpa [Engine.rowsOfSlots] using .none,
        by simpa [Engine.rowsOfSlots] using .none⟩
  | @kept phrase phrases old r olds rs rest σ σ₁ σ' head _ ih =>
      cases hknown with
      | cons hphrase hknown =>
      obtain ⟨hold, holds⟩ := hsprung.uncons
      obtain ⟨hr, hlength, hfirst⟩ := hmends head hlater hphrase hold hbare.split.1
      have hpaired : old.Paired := hold.paired old (by simp)
      obtain ⟨htidy, htidy', hclear, hclear'⟩ := htidy.split hlength.symm hpaired.symm hr.symm
      replace hfirst := hfirst htidy
      obtain ⟨matched, rfl, hrest, hcleared, hcleared'⟩ := ih (P.trans hlater hfirst.later)
        (Purity.phrases_mono hfirst.later hknown) (holds.mono hfirst.later) hbare.split.2 htidy'
      have hmatched := (Sprung.split holds).1
      change Clear _ (e.rowsOfSlots (lexemsOf (matched ++ rest)) (slotsOf (matched ++ rest))) at hclear hclear'
      rw [lexemsOf_append, slotsOf_append, Engine.rowsOfSlots_append (length_lexemsOf hmatched.paired)] at hclear hclear'
      refine ⟨old :: matched, rfl, ?_, ?_, ?_⟩
      · refine hfirst.append hold.paired ?_ ?_ hrest
        · simpa using hclear.left
        · simpa using hclear'.left
      · rw [lexemsOf_cons, slotsOf_cons, Engine.rowsOfSlots_append hpaired.symm]
        exact hclear.right.append hcleared
      · rw [lexemsOf_cons, slotsOf_cons, Engine.rowsOfSlots_append hr.symm]
        exact hclear'.right.append hcleared'

/-- What is left over is removed at the end. -/
theorem swept_brought (hrender : RenderKeeps P e n render) (hmends : Mends P e c.parent n w₀ kept)
    (hlater : P.later w₀ σ.world) (hknown : List.Forall₂ (Phrase.Alike (P.alike σ.world)) phrases phrases)
    (hsprung : Sprung P e σ.world n previous) (hbare : Bare (slotsOf rs))
    (htidy : Tidy e (lexemsOf previous) (slotsOf previous) (lexemsOf rs) (slotsOf rs))
    (h : Engine.Matching (fun phrase σ r σ' => render c phrase σ = .ok r σ') kept phrases previous σ rs rest σ₁)
    (hrest : Sweep (teardown b c.parent) rest σ₁ σ') : Brought P e c.parent n σ previous phrases σ' rs := by
  obtain ⟨matched, rfl, hbrought, hclear, hclear'⟩ :=
    matching_brought hrender hmends hlater hknown hsprung hbare htidy h
  obtain ⟨hmatched, hleft⟩ := Sprung.split hsprung
  have hwhole := hbrought.append hmatched.paired hclear hclear' (sweep_brought (hleft.mono hbrought.later) hrest)
  rwa [List.append_nil, List.append_nil] at hwhole

/-- A child that is kept because it is the same argument, or one that is diffed. -/
def KeptChild (P : Purity b) (w₀ : ω) (diff : Cursor → Phrase → Rendered → Pass ω Rendered) (c : Cursor)
    (phrase : Phrase) (old : Rendered) (σ : Stage ω) (r : Rendered) (σ' : Stage ω) : Prop :=
  diff c phrase old σ = .ok r σ' ∨ r = old ∧ σ' = σ ∧ phrase.Alike (P.alike w₀) old.phrase

theorem DiffKeeps.child {diff : Cursor → Phrase → Rendered → Pass ω Rendered} (hdiff : DiffKeeps P e n diff) :
    Mends P e c.parent n w₀ (KeptChild P w₀ diff c) := by
  rintro phrase old σ r σ' (h | ⟨rfl, rfl, hlike⟩) hlater hknown hsprung hbare
  · exact hdiff c w₀ h hlater hknown hsprung hbare
  · exact ⟨hsprung.paired _ (by simp), rfl, fun _ => ⟨P.refl _, .cons (Purity.phrase_mono hlater hlike) .nil,
      hsprung, .refl⟩⟩

/-- The children of a tag are matched by the phrases that they stand for. -/
theorem phrases_of_children {children oldChildren : List Arg} {oldPhrases : List Phrase} {kids kids' : List Rendered}
    (hspace : lexem.space = old.space) (hchildren : List.Forall₂ (P.alike w) children children)
    (holdChildren : List.Forall₂ (P.alike w) oldChildren oldChildren)
    (hphrases : e.ChildPhrases old oldChildren oldPhrases)
    (hlike : List.Forall₂ (Phrase.Alike (P.alike w)) oldPhrases (kids.map Rendered.phrase))
    (h : Engine.MatchChildren render diff e c lexem (withFormer children oldChildren) kids σ kids' rest σ') :
    ∃ phrases, e.ChildPhrases lexem children phrases ∧ Engine.Matching
      (fun phrase σ r σ' => render c phrase σ = .ok r σ') (KeptChild P w (diff e) c) phrases kids σ kids' rest σ' := by
  induction children generalizing oldChildren oldPhrases kids kids' σ with
  | nil =>
      cases h
      exact ⟨[], .nil, .rest⟩
  | cons child children ih =>
      cases hchildren with
      | cons hchild hchildren =>
      cases h with
      | new head tail =>
          cases hlike
          cases hphrases
          obtain ⟨phrase, hphrase, hr⟩ := head
          obtain ⟨phrases, hphrases, htail⟩ := ih hchildren .nil .nil .nil tail
          exact ⟨phrase :: phrases, .cons hphrase hphrases, .new hr htail⟩
      | kept head tail =>
          cases hlike with
          | cons hlikeHead hlikeTail =>
          cases hphrases with
          | cons hphrase hphrases =>
          cases holdChildren with
          | cons holdChild holdChildren =>
          obtain ⟨phrases, hphrases', htail⟩ := ih hchildren holdChildren hphrases hlikeTail tail
          cases head with
          | diffed hphrase' hdiff => exact ⟨_, .cons hphrase' hphrases', .kept (.inl hdiff) htail⟩
          | same hsame =>
              have halike := P.same holdChild hchild (by simpa using hsame)
              obtain ⟨phrase', hphrase', hlike'⟩ := P.childPhrase_again e hspace hphrase ((P.likeness w).symm halike)
              exact ⟨phrase' :: phrases, .cons hphrase' hphrases', .kept
                (.inr ⟨rfl, rfl, (P.likeness w).lexems_trans hlike'.lexems hlikeHead.lexems, hlike'.named⟩) htail⟩

end Matching

/-- Words that only run or name something leave no more than that. -/
theorem Engine.Fits.effect {i : Instruction} (hfits : e.Fits lexem slot) (hspace : e.isTarget lexem.space = true)
    (hword : e.instruction? lexem = some i) (hi : i = .execute ∨ i = .ref) : slot = .effect := by
  cases hfits with
  | callback | name => rfl
  | skipped hforeign => simp [hspace] at hforeign
  | compound _ hnone => simp [hword] at hnone
  | «attribute» _ hsome hwrites =>
      rw [hword, Option.some.injEq] at hsome
      subst hsome
      rcases hi with rfl | rfl <;> cases hwrites
  | branch _ hsome hbranch =>
      rw [hword, Option.some.injEq] at hsome
      subst hsome
      rcases hi with rfl | rfl <;> simp at hbranch
  | text _ hsome | element _ hsome | listener _ hsome | each _ hsome | raw _ hsome =>
      rw [hword, Option.some.injEq] at hsome
      subst hsome
      simp at hi

/-- Only words that put entries have their entries written again. -/
theorem Engine.Fits.rewrite {i : Instruction} {f : Host → Host} {node : NodeId} (hfits : e.Fits old slot)
    (hspace : e.isTarget old.space = true) (hword : e.instruction? old = some i)
    (hrewrite : e.rewrite lexem old node i = some f) : slot = .attribute ∧ ∃ ws, old.writes i = some ws := by
  cases hfits with
  | «attribute» _ hsome hwrites =>
      rw [hword, Option.some.injEq] at hsome
      subst hsome
      exact ⟨rfl, _, hwrites⟩
  | skipped hforeign => simp [hspace] at hforeign
  | compound _ hnone => simp [hword] at hnone
  | branch _ hsome hbranch =>
      rw [hword, Option.some.injEq] at hsome
      subst hsome
      rcases hbranch with rfl | rfl <;> cases hrewrite
  | text _ hsome | element _ hsome | listener _ hsome | each _ hsome | raw _ hsome | callback _ hsome
  | name _ hsome =>
      rw [hword, Option.some.injEq] at hsome
      subst hsome
      cases hrewrite

/-- A tag unfolds to its children. -/
theorem Engine.Unfolds.children_of_tag (hspace : e.isTarget lexem.space = true)
    (hword : e.instruction? lexem = some .tag) (h : e.Unfolds b lexem w phrases w₀) :
    e.ChildPhrases lexem lexem.children phrases ∧ w₀ = w := by
  cases h with
  | children _ _ hphrases => exact ⟨hphrases, rfl⟩
  | foreign hforeign => simp [hspace] at hforeign
  | developed _ hnone => simp [hword] at hnone
  | still _ hsome hstill =>
      rw [hword, Option.some.injEq] at hsome
      subst hsome
      cases hstill
  | chosen _ hsome | switched _ hsome | listed _ hsome | called _ hsome => simp [hword] at hsome

section Diffing

variable {render : Cursor → Phrase → Pass ω Rendered} {diff : Engine → Cursor → Phrase → Rendered → Pass ω Rendered}
variable {c : Cursor}
variable (hcongruent : lexem.isCongruent old = true) (hknown : lexem.Alike (P.alike σ.world) lexem)
  (hold : Grown P e σ.world n [old] [slot])
include hcongruent hknown hold

theorem Engine.Unchanged.replaced (hargs : lexem.args = [] → old.args = [])
    (h : Engine.Unchanged e lexem old σ slot) : Replaced P e p n σ [old] [slot] σ [lexem] [slot] := by
  have hroot := hold.root
  have hcongruent' := hcongruent
  simp only [Lexem.isCongruent, Bool.and_eq_true, decide_eq_true_eq] at hcongruent'
  obtain ⟨hname, hspace⟩ := hcongruent'
  have hword : e.instruction? lexem = e.instruction? old := Engine.instruction_congr hspace hname
  cases htarget : e.isTarget old.space with
  | false =>
      have hslot : slot = .skipped := by
        cases hroot.fits with
        | skipped => rfl
        | _ => simp_all
      subst hslot
      exact .part hknown (.foreign (hspace ▸ htarget)) hold (.skipped (hspace ▸ htarget)) trivial trivial rfl rfl
        (by simp) (by simp) fun _ => .nothing (P.refl _) (.refl _)
  | true =>
  have hstill : ∀ {i : Instruction}, e.instruction? lexem = some i → i.unfolds = false → slot.parts = [] →
      e.Fits lexem slot → slot.Plain → slot ≠ .attribute → e.endKinds lexem slot = e.endKinds old slot →
      Replaced P e p n σ [old] [slot] σ [lexem] [slot] := by
    intro i hi hstill hparts hfits hplain hentries hkinds
    refine .part hknown (.still (hspace ▸ htarget) hi hstill) hold hfits hplain hplain rfl hkinds hentries hentries
      fun _ => ?_
    rw [hparts]
    exact .nothing (P.refl _) (.refl _)
  have hserved : e.Serves (P.alike σ.world) lexem old → slot.Plain → slot ≠ .attribute →
      e.endKinds lexem slot = e.endKinds old slot → Replaced P e p n σ [old] [slot] σ [lexem] [slot] := by
    intro hserves hplain hentries hkinds
    cases hold with
    | cons hroot hinner _ =>
    exact ⟨P.refl _, .cons (hroot.serve hknown hserves) hinner .nil, .part hplain hplain rfl hkinds
      (Engine.ownRows_silent hentries) (Engine.ownRows_silent hentries) hroot.paired hroot.paired .refl⟩
  have htext : (lexem.arg 0).same (old.arg 0) = true → (lexem.arg 0).toText = (old.arg 0).toText := by
    intro hsame
    have hR := (P.likeness σ.world).conformity
    exact hR.toText_eq (P.same (hR.arg hknown 0) (hR.arg hroot.known 0) hsame)
  cases h with
  | foreign hforeign => simp [hspace, htarget] at hforeign
  | bare hnone =>
      have heq : lexem = old := by
        cases lexem
        cases old
        simp_all
      subst heq
      exact ⟨P.refl _, hold, .refl⟩
  | compound hcompound hunchanged =>
      exact hserved (.of_alike (P.likeness _) (Purity.alike_of_unchanged hknown hroot.known hcongruent hunchanged))
        trivial (by simp) rfl
  | text hi hsame =>
      refine hstill hi rfl rfl (.text (hspace ▸ htarget) hi) trivial (by simp) ?_
      simp only [Engine.endKinds, Engine.ownRows, htext hsame]
  | switch hi hunchanged =>
      refine hserved (Purity.serves_of_unchanged hknown hroot.known hcongruent (by simp [Engine.packs, hi]) hunchanged)
        trivial (by simp) ?_
      simp only [Engine.endKinds, Engine.ownRows, Engine.choiceLabel, hword]
  | raw hi hsame =>
      refine hstill hi rfl rfl (.raw (hspace ▸ htarget) hi) trivial (by simp) ?_
      simp only [Engine.endKinds, Engine.ownRows, htext hsame]
  | callback hi hunchanged =>
      have hslot := hroot.fits.effect htarget (hword ▸ hi) (.inl rfl)
      subst hslot
      exact hserved (Purity.serves_of_unchanged hknown hroot.known hcongruent (by simp [Engine.packs, hi]) hunchanged)
        trivial (by simp) rfl
  | component => cases hroot.fits

/-- Diffing a lexem brings its slot to what the lexem says now, if nothing is in the way. -/
theorem Engine.DiffStep.replaced (hrender : RenderKeeps P e n render) (hdiff : DiffKeeps P e n (diff e))
    (hbare : Bare [slot']) (hargs : lexem.args = [] → old.args = [])
    (htidy : e.renews lexem old = false →
      Tidy e (lexemsOf slot.parts) (slotsOf slot.parts) (lexemsOf slot'.parts) (slotsOf slot'.parts))
    (h : Engine.DiffStep b render diff e c lexem old σ slot slot' σ') :
    Replaced P e c.parent n σ [old] [slot] σ' [lexem] [slot'] := by
  have hroot := hold.root
  have hsprung := hold.sprung
  have hcongruent' := hcongruent
  simp only [Lexem.isCongruent, Bool.and_eq_true, decide_eq_true_eq] at hcongruent'
  obtain ⟨hname, hspace⟩ := hcongruent'
  have hword : e.instruction? lexem = e.instruction? old := Engine.instruction_congr hspace hname
  have hR := (P.likeness σ.world).conformity
  have hlater : ∀ {phrases w}, e.Unfolds b lexem σ.world phrases w → P.later σ.world w := fun hunfolds =>
    (Purity.yields_of_unfolds hknown hunfolds).1
  have hmarker : ∀ witness developed developed', e.endKinds lexem (.branch witness developed) =
      e.endKinds old (.branch witness developed') := fun witness developed developed' => by
    simp only [Engine.endKinds, Engine.ownRows, Engine.choiceLabel, hword]
  cases h with
  | kept hkept => exact hkept.replaced hcongruent hknown hold hargs
  | redeveloped htarget hnone hchanged hdevelop hstep =>
      refine .part hknown (Engine.develop_unfolds htarget hnone hdevelop) hold (.compound htarget hnone) trivial trivial
        rfl rfl (by simp) (by simp) fun hphrases => ?_
      cases hphrases with
      | cons hphrase _ =>
      obtain ⟨-, -, hbrought⟩ := hdiff c _ hstep (P.refl _) hphrase
        (hsprung.mono (hlater (Engine.develop_unfolds htarget hnone hdevelop))) hbare.parts.split.1
      refine hbrought ?_
      simpa [Slot.parts] using htidy (by simp [Engine.renews, hnone])
  | rewritten htarget hsome hi hrewrite =>
      obtain ⟨rfl, ws, hwrites⟩ := hroot.fits.rewrite (hspace ▸ htarget) (hword ▸ hi) hrewrite
      have hsame : ∀ i, (lexem.arg i).same (old.arg i) = true → P.alike σ.world (lexem.arg i) (old.arg i) := fun i =>
        P.same (hR.arg hknown i) (hR.arg hroot.known i)
      obtain ⟨ws', hwrites', hrewrites⟩ := rewrite_rewrites
        (fun i h => (P.likeness σ.world).conformity.toText_eq (hsame i h)) hwrites hrewrite
      obtain ⟨-, -, hyields⟩ := Purity.yields_of_unfolds hknown (.still htarget hi (Lexem.writes_still hwrites))
      refine ⟨P.refl _, .single (.attribute htarget hi hwrites') hknown hyields .nil .nil, .entries fun hp => ?_⟩
      rw [Engine.entries_eq hi hwrites', Engine.entries_eq (hword ▸ hi) hwrites]
      exact hrewrites _ hp
  | text htarget hi hsame =>
      obtain ⟨-, -, hyields⟩ := Purity.yields_of_unfolds hknown (.still htarget hi rfl)
      exact ⟨P.refl _, .single (.text htarget hi) hknown hyields .nil .nil, .text⟩
  | @retagged node kids _ _ _ σ₁ _ hi htag holdTag hne hstep hremove =>
      have hfirst := hstep.replaced hrender hknown hbare
      have hgrown := hold.mono hfirst.later
      have hgone : Replaced P e c.parent n σ₁ [old] [.element node kids] σ' [] [] := by
        rw [teardownSlot_bare hgrown.bare hremove]
        refine ⟨P.refl _, .nil, .gone fun hp => ?_⟩
        have herases := detachSlots_erases (detachComponent σ₁.instances σ₁.instances.size) hgrown hp
        rw [detachSlots, detachSlots] at herases
        · exact herases
        all_goals simp
      have hsilent : placesOf (e.rowsOfSlots [old] [.element node kids]) = [] := by
        simp [Engine.rowsOfSlots, Engine.slotRows, placesOf, entriesOf]
      refine hfirst.append rfl ?_ ?_ hgone
      · simpa [Engine.rowsOfSlots] using .nil
      · intro π _
        rw [hsilent]
        simp
  | tag htarget hi htag holdTag hkids hrest =>
      obtain ⟨oldPhrases, w, hunfolds, -, hlike⟩ := hroot.yields old σ.world (P.refl _)
        (.of_alike (P.likeness _) hroot.known)
      obtain ⟨holdPhrases, rfl⟩ := hunfolds.children_of_tag (hspace ▸ htarget) (hword ▸ hi)
      obtain ⟨phrases, hphrases, hmatching⟩ := phrases_of_children hspace (hR.children hknown) (hR.children hroot.known)
        holdPhrases hlike hkids
      obtain ⟨-, hphrases', hyields⟩ := Purity.yields_of_unfolds hknown (.children htarget hi hphrases)
      have htext : (lexem.arg 0).toText = (old.arg 0).toText := by
        rw [Lexem.stringArg_ok.mp htag, Lexem.stringArg_ok.mp holdTag]
      have hbrought := swept_brought (c := c.inside _) hrender hdiff.child (P.refl _) hphrases' hsprung hbare.parts
        (htidy (by simp [Engine.renews, hi, htext])) hmatching hrest
      exact ⟨hbrought.later, .single (.element htarget hi htag) (Purity.lexem_mono hbrought.later hknown)
        (hyields.mono hbrought.later) hbrought.like hbrought.sprung,
        .element htext hsprung.paired hbrought.sprung.paired hbrought.repaint⟩
  | moved htarget hi hevent holdEvent hne hlistener =>
      exact .part hknown (.still htarget hi rfl) hold (.listener htarget hi hevent hlistener) trivial trivial rfl rfl
        (by simp) (by simp) fun _ => .nothing (P.refl _) ((Host.SameContents.removeListener _ _ _ _).trans
          (.addListener _ _ _ _))
  | rebound htarget hi hevent holdEvent hlistener =>
      exact .part hknown (.still htarget hi rfl) hold (.listener htarget hi hevent hlistener) trivial trivial rfl rfl
        (by simp) (by simp) fun _ => .nothing (P.refl _) (.rebind _ _ _)
  | branch htarget hi hchoice hflips hchosen hstep =>
      obtain ⟨hunfolds, hbranch, hlabel⟩ := Engine.choice_unfolds htarget hi hchoice hchosen
      refine .part hknown hunfolds hold (.branch htarget hi hbranch) trivial trivial rfl (hmarker _ _ _) (by simp)
        (by simp) fun hphrases => ?_
      cases hphrases with
      | cons hphrase _ =>
      obtain ⟨-, -, hbrought⟩ := hdiff _ _ hstep (P.refl _) hphrase (hsprung.mono (hlater hunfolds))
        hbare.parts.split.1
      refine hbrought ?_
      simpa [Slot.parts] using htidy (by rcases hbranch with rfl | rfl <;> simp [Engine.renews, hi, hflips])
  | flipped htarget hi hchoice hflips hchosen hremove hinner =>
      obtain ⟨hunfolds, hbranch, hlabel⟩ := Engine.choice_unfolds htarget hi hchoice hchosen
      refine .part hknown hunfolds hold (.branch htarget hi hbranch) trivial trivial rfl (hmarker _ _ _) (by simp)
        (by simp) fun hphrases => ?_
      have hgone := sweep_brought (hsprung.mono (hlater hunfolds)) hremove
      exact hgone.trans_gone (chain_brought (c := c.before _) hrender (Purity.phrases_mono hgone.later hphrases)
        hbare.parts hinner)
  | each htarget hi hphrases hitems hrest =>
      have hunfolds := Engine.eachPhrases_unfolds htarget hi hphrases
      refine .part hknown hunfolds hold (.each htarget hi) trivial trivial rfl rfl (by simp) (by simp)
        fun hphrases => ?_
      exact swept_brought (c := c.before _) hrender (hdiff _ _) (P.refl _) hphrases (hsprung.mono (hlater hunfolds))
        hbare.parts (htidy (by simp [Engine.renews, hi])) hitems hrest
  | @raw witness nodes htarget hi hsame =>
      obtain ⟨-, -, hyields⟩ := Purity.yields_of_unfolds hknown (.still htarget hi rfl)
      refine ⟨P.refl _, .single (.raw htarget hi) hknown hyields .nil .nil, ?_⟩
      exact .markup (.foldl (fun h n => .removeChild h c.parent n) σ.host nodes)
        (Host.insertRaw_makes (nodes.foldl (fun h n => h.removeChild c.parent n) σ.host) c.parent _ (some witness)) rfl
  | hook | rehooked | component => cases hroot.fits
  | callback htarget hi hchanged hcallback hcall =>
      have hslot := hroot.fits.effect (hspace ▸ htarget) (hword ▸ hi) (.inl rfl)
      subst hslot
      exact .part hknown (.called htarget hi (Lexem.callbackArg_ok.mp hcallback) hcall) hold
        (.callback htarget hi hcallback) trivial trivial rfl rfl (by simp) (by simp) fun _ =>
          .nothing (P.refl _) (.refl _)
  | name htarget hi hname =>
      have hslot := hroot.fits.effect (hspace ▸ htarget) (hword ▸ hi) (.inr rfl)
      subst hslot
      obtain ⟨t, rfl, -, -⟩ := nameNode_ok hname
      exact .part hknown (.still htarget hi rfl) hold (.name htarget hi) trivial trivial rfl rfl (by simp) (by simp)
        fun _ => .nothing (P.refl _) (.refl _)

end Diffing

section Within

variable {render : Cursor → Phrase → Pass ω Rendered} {diff : Engine → Cursor → Phrase → Rendered → Pass ω Rendered}
variable {c : Cursor} {phrase : Phrase}

theorem chain_replaced (hrender : RenderKeeps P e n render) (hknown : P.Known σ.world lexems) (hbare : Bare slots)
    (h : Chain (Engine.renderLexem b render e c) lexems σ slots σ') :
    Replaced P e c.parent n σ [] [] σ' lexems slots := by
  induction h with
  | nil => exact ⟨P.refl _, .nil, .refl⟩
  | cons head _ ih =>
      cases hknown with
      | cons hlexem hknown =>
      cases hbare with
      | cons hhook hcomponent hinner houter =>
      have hfirst := (Engine.renderLexem_step head).replaced hrender hlexem (.cons hhook hcomponent hinner .nil)
      have hrest := ih (hknown.imp fun _ _ => Purity.lexem_mono hfirst.later) houter
      exact hfirst.append rfl (by simpa [Engine.rowsOfSlots] using .none) (by simpa [Engine.rowsOfSlots] using .none)
        hrest

theorem Engine.DiffSteps.replaced (hrender : RenderKeeps P e n render) (hdiff : DiffKeeps P e n (diff e))
    (hknown : P.Known σ.world lexems) (hold : Grown P e σ.world n olds slots) (hbare : Bare slots')
    (htidy : Tidy e olds slots lexems slots') (h : Engine.DiffSteps b render diff e c lexems olds slots σ slots' σ') :
    Replaced P e c.parent n σ olds slots σ' lexems slots' := by
  induction h with
  | nil => exact ⟨P.refl _, .nil, .refl⟩
  | cons hcongruent head _ ih =>
      cases hknown with
      | cons hlexem hknown =>
      cases hold with
      | cons hroot hgrown hold =>
      cases hbare with
      | cons hhook hcomponent hinner houter =>
      cases htidy with
      | cons hargs hclear hclear' htidyInner htidy =>
      have hfirst := head.replaced hcongruent hlexem (.cons hroot hgrown .nil) hrender hdiff
        (.cons hhook hcomponent hinner .nil) hargs htidyInner
      have hrest := ih (hknown.imp fun _ _ => Purity.lexem_mono hfirst.later) (hold.mono hfirst.later) houter htidy
      exact hfirst.append rfl (by simpa [Engine.rowsOfSlots] using hclear)
        (by simpa [Engine.rowsOfSlots] using hclear') hrest

/-- Slots in the place of those of outputs make up an output of their own. -/
theorem Replaced.brought (hphrase : phrase.Alike (P.alike σ.world) phrase)
    (h : Replaced P e p n σ (lexemsOf previous) (slotsOf previous) σ' phrase.sentence.lexems slots) :
    Brought P e p (n + 1) σ previous [phrase] σ' [⟨phrase.identity, phrase.sentence, slots⟩] := by
  have hlike := Purity.phrase_mono h.later hphrase
  refine ⟨h.later, .cons hlike .nil, ⟨?_, fun _ => Nat.succ_pos n, ?_, ?_⟩, ?_⟩
  · intro r hr i hi
    rw [List.mem_singleton.mp hr] at hi ⊢
    exact hlike.named i hi
  · intro r hr
    rw [List.mem_singleton.mp hr]
    exact h.grown.length_eq.symm
  · simpa using h.grown
  · simpa using h.repaint

theorem renderWithin_keeps (n : Nat) : RenderKeeps P e n (Engine.renderWithin b n e) := by
  induction n with
  | zero =>
      intro c phrase σ r σ' h
      cases h
  | succ n ih =>
      intro c phrase σ r σ' h hphrase hbare
      obtain ⟨slots, rfl, hchain⟩ := Engine.renderPhrase_ok h
      exact Replaced.brought hphrase (chain_replaced ih hphrase.lexems hbare hchain)

theorem diffWithin_keeps (n : Nat) : DiffKeeps P e n (Engine.diffWithin b n e) := by
  induction n with
  | zero =>
      intro c w₀ phrase old σ r σ' h
      cases h
  | succ n ih =>
      intro c w₀ phrase old σ r σ' h hlater hphrase hsprung hbare
      have hpaired : old.Paired := hsprung.paired old (by simp)
      have hgrown : Grown P e σ.world n old.sentence.lexems old.slots := by simpa using hsprung.grown
      rcases Engine.diffPhrase_ok hpaired h with ⟨hreuses, rfl, rfl⟩ | ⟨-, slots, rfl, hsteps⟩
      · refine ⟨hpaired, rfl, fun _ => ⟨P.refl _, .cons ?_ .nil, hsprung, .refl⟩⟩
        simp only [Engine.reuses, Bool.and_eq_true, decide_eq_true_eq] at hreuses
        obtain ⟨⟨-, hsome⟩, hidentity⟩ := hreuses
        obtain ⟨i, hi⟩ := Option.isSome_iff_exists.mp hsome
        have halike := P.same (hphrase.named i hi) (hsprung.named _ (by simp) i (hidentity ▸ hi)) (by simp [Arg.same])
        exact ⟨(Purity.phrase_sentence halike).lexems, hphrase.named⟩
      · have hlength := hsteps.length_eq
        refine ⟨hlength, hsteps.lexems_length, fun htidy => ?_⟩
        have hreplaced := hsteps.replaced (renderWithin_keeps n) ih hphrase.lexems hgrown hbare htidy
        exact Replaced.brought hphrase (by simpa using hreplaced)

end Within

end Parlance
