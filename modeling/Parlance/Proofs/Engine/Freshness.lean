import Parlance.Proofs.Engine.Mending
import Parlance.Proofs.Engine.Picture
import Parlance.Proofs.Engine.Standing

/-! What is retained can be rendered afresh. The parts of a sound output may be of any age, but each came of a phrase
like the one that its lexem would unfold to now, so rendering the lexems once more succeeds and shows the same rows.
As every diff lays the new rows over the old ones, an output that has been diffed for as long as one likes shows what
a fresh rendering of the last sentence shows. -/

namespace Parlance

open Pass

variable {ω : Type} {b : Behaviour ω} {P : Purity b} {e : Engine} {w w' : ω} {n : Nat}
variable {lexem lexem' : Lexem} {slot : Slot} {lexems lexems' : List Lexem} {slots : List Slot}
variable {phrases : List Phrase} {rows : List Row}

namespace Engine

/-- What a lexem with an instruction unfolds to. -/
theorem Unfolds.of_instruction {i : Instruction} (hspace : e.isTarget lexem.space = true)
    (hword : e.instruction? lexem = some i) (h : e.Unfolds b lexem w phrases w') :
    match i with
    | .tag => e.ChildPhrases lexem lexem.children phrases ∧ w' = w
    | .ifElse => ∃ chosen, phrases = chosen.toList ∧ Chooses b lexem w chosen w'
    | .switchUse => ∃ chosen, phrases = chosen.toList ∧ Switches b e lexem w chosen w'
    | .each => Lists b lexem w phrases w'
    | .execute => phrases = [] ∧ ∃ callback, lexem.arg 0 = .callback callback ∧
        b.callback callback (lexem.arg 1).items w = .ok () w'
    | _ => phrases = [] ∧ w' = w := by
  have hi : ∀ {j}, e.instruction? lexem = some j → i = j := fun hj => Option.some.inj (hword.symm.trans hj)
  cases h with
  | foreign hforeign => simp [hspace] at hforeign
  | developed _ hnone => simp [hword] at hnone
  | children _ hsome hphrases =>
      obtain rfl := hi hsome
      exact ⟨hphrases, rfl⟩
  | chosen _ hsome hchooses =>
      obtain rfl := hi hsome
      exact ⟨_, rfl, hchooses⟩
  | switched _ hsome hswitches =>
      obtain rfl := hi hsome
      exact ⟨_, rfl, hswitches⟩
  | listed _ hsome hlists =>
      obtain rfl := hi hsome
      exact hlists
  | called _ hsome hcallback hcall =>
      obtain rfl := hi hsome
      exact ⟨rfl, _, hcallback, hcall⟩
  | still _ hsome hstill =>
      obtain rfl := hi hsome
      cases i <;> first | exact ⟨rfl, rfl⟩ | cases hstill

/-- What a compound unfolds to. -/
theorem Unfolds.of_compound (hspace : e.isTarget lexem.space = true) (hword : e.instruction? lexem = none)
    (h : e.Unfolds b lexem w phrases w') : ∃ s, phrases = [.new s] ∧ Develops b e lexem w s w' := by
  cases h with
  | developed _ _ hdevelops => exact ⟨_, rfl, hdevelops⟩
  | foreign hforeign => simp [hspace] at hforeign
  | children _ hsome | chosen _ hsome | switched _ hsome | listed _ hsome | called _ hsome | still _ hsome =>
      simp [hword] at hsome

end Engine

variable (P e n) in
/-- Phrases can be rendered in a world, outside of components but wherever on a host, and they show certain rows. -/
def Purity.Come (w : ω) (phrases : List Phrase) (rows : List Row) : Prop :=
  ∀ (σ : Stage ω) (c : Cursor), σ.world = w → c.component = none →
    ∃ rs σ', Chain (Engine.renderWithin b n e c) phrases σ rs σ' ∧ P.later w σ'.world ∧ Bare (slotsOf rs) ∧
      e.rowsOfAll rs = rows

/-- A lexem that serves in the place of another can be rendered, and it shows the same rows, if this is so for what it
unfolds to. -/
theorem Engine.Fits.rendered {σ : Stage ω} {c : Cursor} (hfits : e.Fits lexem slot)
    (hserves : e.Serves (P.alike σ.world) lexem' lexem) (hunfolds : e.Unfolds b lexem' σ.world phrases w)
    (hcursor : c.component = none) (hlater : P.later σ.world w) (hcome : P.Come e n w phrases (e.rowsOfAll slot.parts)) :
    ∃ slot' σ', Engine.RenderStep b (Engine.renderWithin b n e) e c lexem' σ slot' σ' ∧
      P.later σ.world σ'.world ∧ Bare [slot'] ∧ e.slotRows lexem' slot' = e.slotRows lexem slot := by
  have hword : e.instruction? lexem' = e.instruction? lexem := Engine.instruction_congr hserves.space hserves.name
  have hR := P.likeness σ.world
  have halike : ∀ {i}, e.instruction? lexem' = some i → i ≠ .switchUse → i ≠ .execute →
      lexem'.Alike (P.alike σ.world) lexem := fun hi hswitch hexecute =>
    hserves.alike (by simp [Engine.packs, hi, hswitch, hexecute])
  have htext : lexem'.Alike (P.alike σ.world) lexem → (lexem'.arg 0).toText = (lexem.arg 0).toText := fun h =>
    hR.conformity.toText_eq (hR.conformity.arg h 0)
  have hlabel : e.choiceLabel lexem' = e.choiceLabel lexem := by rw [Engine.choiceLabel, Engine.choiceLabel, hword]
  have hbare : ∀ slot' : Slot, (∀ node, slot' ≠ .hook node) → (∀ id, slot' ≠ .component id) →
      Bare (slotsOf slot'.parts) → Bare [slot'] := fun _ hhook hcomponent hinner => .cons hhook hcomponent hinner .nil
  have hfits' := hfits.serve hR hserves
  cases hfits' with
  | skipped hspace => exact ⟨_, σ, .skipped hspace, P.refl _, hbare .skipped (by simp) (by simp) .nil, rfl⟩
  | compound hspace hnone =>
      obtain ⟨s, rfl, hdevelops⟩ := hunfolds.of_compound hspace hnone
      obtain ⟨rs, σ', hchain, hlater', hinner, hrows⟩ := hcome (σ.inWorld w) c rfl hcursor
      cases hchain with
      | @cons _ _ r _ _ _ _ hrender htail =>
      cases htail
      refine ⟨_, σ', .compound hspace hnone hdevelops.ok hrender, P.trans hlater hlater',
        hbare (.compound r) (by simp) (by simp) hinner, ?_⟩
      simpa [Engine.slotRows, Engine.rowsOfAll, Slot.parts] using hrows
  | «attribute» hspace hsome hwrites' =>
      cases hfits with
      | «attribute» _ hsome' hwrites =>
      rw [hword, hsome', Option.some.injEq] at hsome
      subst hsome
      have hl := halike (hword.trans hsome') (by rintro rfl; cases hwrites) (by rintro rfl; cases hwrites)
      obtain ⟨ws, hwrites₁, hentries⟩ := hR.writes_ok hl hwrites
      rw [hwrites₁, Option.some.injEq] at hwrites'
      subst hwrites'
      refine ⟨_, _, .attribute hspace (hword.trans hsome') hwrites₁, P.refl _,
        hbare .attribute (by simp) (by simp) .nil, ?_⟩
      rw [Engine.slotRows, Engine.slotRows, Engine.entries_eq (hword.trans hsome') hwrites₁,
        Engine.entries_eq hsome' hwrites, hentries]
  | text hspace hsome =>
      refine ⟨_, _, .text hspace hsome, P.refl _, hbare (.text σ.host.next) (by simp) (by simp) .nil, ?_⟩
      rw [Engine.slotRows, Engine.slotRows, htext (halike hsome (by simp) (by simp))]
  | element hspace hsome htag =>
      obtain ⟨hphrases, rfl⟩ := hunfolds.of_instruction hspace hsome
      obtain ⟨rs, σ', hchain, hlater', hinner, hrows⟩ :=
        hcome (σ.onHost (·.putElement c _)) (c.inside σ.host.next) rfl hcursor
      refine ⟨_, σ', .element hspace hsome htag hphrases hchain, hlater',
        hbare (.element σ.host.next rs) (by simp) (by simp) hinner, ?_⟩
      rw [Engine.slotRows, Engine.slotRows, htext (halike hsome (by simp) (by simp)), hrows]
      rfl
  | listener hspace hsome hevent hlistener =>
      exact ⟨_, _, .listener hspace hsome hevent hlistener, P.refl _, hbare (.listener _) (by simp) (by simp) .nil, rfl⟩
  | @branch witness developed i hspace hsome hi =>
      obtain ⟨chosen, label, m, rfl, hchoice, hchosen⟩ : ∃ chosen label m, phrases = Option.toList chosen ∧
          e.choice b lexem' i = some (label, m) ∧ m σ = .ok chosen (σ.inWorld w) := by
        rcases hi with rfl | rfl
        · obtain ⟨chosen, rfl, hchooses⟩ := hunfolds.of_instruction hspace hsome
          exact ⟨chosen, _, _, rfl, rfl, hchooses.ok⟩
        · obtain ⟨chosen, rfl, hswitches⟩ := hunfolds.of_instruction hspace hsome
          exact ⟨chosen, _, _, rfl, rfl, hswitches.ok⟩
      obtain ⟨rs, σ', hchain, hlater', hinner, hrows⟩ := hcome (σ.inWorld w) c rfl hcursor
      obtain ⟨developed', rfl⟩ : ∃ developed', rs = Option.toList developed' := by
        cases chosen with
        | none =>
            cases hchain
            exact ⟨none, rfl⟩
        | some =>
            cases hchain with
            | cons _ htail =>
            cases htail
            exact ⟨some _, rfl⟩
      refine ⟨_, _, .branch hspace hsome hchoice hchosen hchain, P.trans hlater hlater',
        hbare (.branch σ'.host.next developed') (by simp) (by simp) hinner, ?_⟩
      have hplain : ∀ witness developed, (Slot.branch witness developed).Plain := fun _ _ => trivial
      rw [Engine.slotRows_plain _ (hplain _ _), Engine.slotRows_plain _ (hplain _ _), Engine.ownRows, Engine.ownRows,
        hlabel, ← hrows]
      rfl
  | each hspace hsome =>
      have hlists := hunfolds.of_instruction hspace hsome
      obtain ⟨rs, σ', hchain, hlater', hinner, hrows⟩ := hcome (σ.inWorld w) c rfl hcursor
      refine ⟨_, _, .each hspace hsome hlists.ok hchain, P.trans hlater hlater',
        hbare (.each σ'.host.next rs) (by simp) (by simp) hinner, ?_⟩
      rw [Engine.slotRows, Engine.slotRows, hrows]
      rfl
  | raw hspace hsome =>
      refine ⟨_, _, .raw hspace hsome, P.refl _, hbare (.raw _ _) (by simp) (by simp) .nil, ?_⟩
      rw [Engine.slotRows, Engine.slotRows, htext (halike hsome (by simp) (by simp))]
  | callback hspace hsome hcallback =>
      obtain ⟨rfl, callback', hcallback', hcall⟩ := hunfolds.of_instruction hspace hsome
      exact ⟨_, _, .callback hspace hsome (Lexem.callbackArg_ok.mpr hcallback') hcall, hlater,
        hbare .effect (by simp) (by simp) .nil, rfl⟩
  | name hspace hsome =>
      have hname : Engine.nameNode c lexem' σ = .ok () σ := by
        rw [Engine.nameNode, hcursor]
        rfl
      exact ⟨_, _, .name hspace hsome hname, P.refl _, hbare .effect (by simp) (by simp) .nil, rfl⟩

/-- Passes over a list are passes over its parts, one after the other. -/
theorem Pass.Chain.split {α β : Type} {f : α → Pass ω β} {as as' : List α} {xs : List β} {σ σ' : Stage ω}
    (h : Chain f (as ++ as') σ xs σ') :
    ∃ ys zs σ₁, xs = ys ++ zs ∧ Chain f as σ ys σ₁ ∧ Chain f as' σ₁ zs σ' := by
  induction as generalizing σ xs with
  | nil => exact ⟨[], xs, σ, rfl, .nil, h⟩
  | cons a as ih =>
      cases h with
      | cons head tail =>
      obtain ⟨ys, zs, σ₁, rfl, hfirst, hsecond⟩ := ih tail
      exact ⟨_ :: ys, zs, σ₁, rfl, .cons head hfirst, hsecond⟩

/-- Phrases are rendered if their lexems are, one after the other. -/
theorem chain_of_lexems {σ σ' : Stage ω} {c : Cursor} (hdeep : phrases ≠ [] → 0 < n)
    (h : Chain (Engine.renderLexem b (Engine.renderWithin b (n - 1) e) e c) (phrases.flatMap (·.sentence.lexems))
      σ slots σ') :
    ∃ rs, Chain (Engine.renderWithin b n e c) phrases σ rs σ' ∧ slotsOf rs = slots ∧ (∀ r ∈ rs, r.Paired) ∧
      lexemsOf rs = phrases.flatMap (·.sentence.lexems) := by
  induction phrases generalizing σ slots with
  | nil =>
      cases h
      exact ⟨[], .nil, rfl, by simp, rfl⟩
  | cons phrase phrases ih =>
      obtain ⟨depth, rfl⟩ := Nat.exists_eq_add_one.mpr (hdeep (by simp))
      rw [List.flatMap_cons] at h ⊢
      obtain ⟨slots', rest, σ₁, rfl, hfirst, hsecond⟩ := h.split
      obtain ⟨rs, hchain, rfl, hpaired, hlexems⟩ := ih (fun _ => Nat.succ_pos _) hsecond
      have hrender : Engine.renderWithin b (depth + 1) e c phrase σ =
          .ok ⟨phrase.identity, phrase.sentence, slots'⟩ σ₁ :=
        bind_eq_ok.mpr ⟨slots', σ₁, mapM_eq_ok.mpr hfirst, rfl⟩
      refine ⟨_ :: rs, .cons hrender hchain, rfl, fun r hr => ?_, by rw [lexemsOf_cons, hlexems]⟩
      rcases List.mem_cons.mp hr with rfl | hr
      · exact hfirst.length_eq
      · exact hpaired r hr

/-- What is sound can be rendered in every later world, and it shows the same rows again. -/
theorem Grown.rendered (hgrown : Grown P e w n lexems slots) {σ : Stage ω} {c : Cursor} (hlater : P.later w σ.world)
    (hserves : List.Forall₂ (e.Serves (P.alike σ.world)) lexems' lexems) (hcursor : c.component = none) :
    ∃ slots' σ', Chain (Engine.renderLexem b (Engine.renderWithin b n e) e c) lexems' σ slots' σ' ∧
      P.later σ.world σ'.world ∧ Bare slots' ∧ e.rowsOfSlots lexems' slots' = e.rowsOfSlots lexems slots := by
  induction hgrown generalizing σ c lexems' with
  | nil =>
      cases hserves
      exact ⟨[], σ, .nil, P.refl _, .nil, rfl⟩
  | @cons n lexem slot lexems slots hroot _ _ ihinner ihouter =>
      cases hserves with
      | cons hhead htail =>
      obtain ⟨phrases, w₁, hunfolds, hlater₁, hlike⟩ := hroot.yields _ _ hlater hhead
      have hcome : P.Come e n w₁ phrases (e.rowsOfAll slot.parts) := by
        intro τ c' hτ hcursor'
        have hlexems : List.Forall₂ (e.Serves (P.alike τ.world)) (phrases.flatMap (·.sentence.lexems))
            (lexemsOf slot.parts) := by
          have hlexems := (List.forall₂_map_right_iff.mp hlike).imp fun _ _ h => h.lexems
          subst hτ
          exact List.rel_flatMap hlexems fun _ _ h => h.imp fun _ _ => .of_alike (P.likeness _)
        obtain ⟨slots', τ', hchain, hlater', hbare, hrows⟩ :=
          ihinner (c := c') (hτ ▸ P.trans hlater hlater₁) hlexems hcursor'
        have hdeep : phrases ≠ [] → 0 < n := fun hne => hroot.deep fun hparts => by
          rw [hparts] at hlike
          cases hlike
          exact hne rfl
        obtain ⟨rs, hrendered, rfl, hpaired, hlexemsOf⟩ := chain_of_lexems hdeep hchain
        refine ⟨rs, τ', hrendered, hτ ▸ hlater', hbare, ?_⟩
        rw [Engine.rowsOfAll_eq hpaired, Engine.rowsOfAll_eq hroot.paired, hlexemsOf, hrows]
      obtain ⟨slot', σ₁, hstep, hlater', hbare, hrows⟩ :=
        hroot.fits.rendered hhead hunfolds hcursor hlater₁ hcome
      obtain ⟨slots', σ', hchain, hlater'', hbares, hrowses⟩ := ihouter (P.trans hlater hlater')
        (htail.imp fun _ _ => Engine.Serves.mono fun _ _ => P.mono hlater') hcursor
      refine ⟨slot' :: slots', σ', .cons hstep.ok hchain, P.trans hlater' hlater'', hbare.append hbares, ?_⟩
      rw [Engine.rowsOfSlots, Engine.rowsOfSlots, hrows, hrowses]

section Runs

variable {k : Nat} {p p₀ : NodeId} {s s' : Sentence} {r r' : Rendered} {σ σ₁ σ' : Stage ω}

/-- A node with nothing on it and nothing under it. -/
structure Host.Blank (h : Host) (p : NodeId) : Prop where
  made : p.index < h.count
  content : h.content p = Content.new (h.content p).kind
  children : h.children p = []

/-- Where only outputs without hooks and components are looked at, no node belongs to a hook. -/
def Territory.still (b : Behaviour ω) : Territory b where
  bare := True
  foreign _ _ := False
  act _ _ h := h
  count h := absurd trivial h
  children h := absurd trivial h
  made h := absurd trivial h

variable (P e) in
/-- An output stands alone under its parent, and its nodes and the parent show what its sentence says. All of its
nodes have been made after a certain number of others. -/
structure Faithful (k : Nat) (p : NodeId) (r : Rendered) (σ : Stage ω) : Prop where
  sprung : Sprung P e σ.world Engine.depthLimit [r]
  standing : ∃ cs tops owned, Standing (.still b) p [] [] r σ cs tops owned
  depicts : ∃ nodes, Depicts e σ.host r.sentence.lexems r.slots nodes ∧ Ground σ.host (p :: nodes) ∧
    ∀ n ∈ nodes, k ≤ n.index
  held : ∀ π, (σ.host.content p).held π = shownAt (e.rowsOfSlots r.sentence.lexems r.slots) π
  roomy : σ.host.Roomy k
  made : p.index < k
  count : k ≤ σ.host.count

namespace Faithful

/-- The children of the parent show the rows of the output. -/
theorem shows (h : Faithful P e k p r σ) :
    Shows σ.host (σ.host.children p) (e.rowsOfSlots r.sentence.lexems r.slots) := by
  obtain ⟨cs, tops, owned, hstanding⟩ := h.standing
  obtain ⟨nodes, hdepicts, -, hlate⟩ := h.depicts
  have hgrown := h.sprung.grown
  simp only [lexemsOf_cons, lexemsOf_nil, slotsOf_cons, slotsOf_nil, List.append_nil] at hgrown
  rw [hstanding.block.children, List.nil_append, List.append_nil]
  exact Placed.shows hgrown h.roomy hstanding.placed hdepicts hlate

/-- Once an output has been brought to a sentence, it shows what the sentence says. -/
theorem of_brought {olds : List Rendered} {nodes : List NodeId}
    (hbrought : Brought P e p Engine.depthLimit σ olds [.new s] σ' [r])
    (hstanding : ∃ cs tops owned, Standing (.still b) p [] [] r σ' cs tops owned)
    (hdepicts : Depicts e σ.host (lexemsOf olds) (slotsOf olds) nodes) (hground : Ground σ.host (p :: nodes))
    (hlate : ∀ n ∈ nodes, k ≤ n.index)
    (hheld : ∀ π, (σ.host.content p).held π = shownAt (e.rowsOfSlots (lexemsOf olds) (slotsOf olds)) π)
    (hroomy : σ.host.Roomy k) (hmade : p.index < k) (hcount : k ≤ σ.host.count) : Faithful P e k p r σ' := by
  obtain ⟨nodes', hpainted⟩ := hbrought.repaint nodes hdepicts hground
  have hshown := hpainted.held
  obtain ⟨hdepicts', hground', hcount', hfresh, -, -, -, -, hroomy'⟩ := hpainted
  simp only [lexemsOf_cons, lexemsOf_nil, slotsOf_cons, slotsOf_nil, List.append_nil] at hdepicts' hshown
  refine ⟨hbrought.sprung, hstanding, ⟨nodes', hdepicts', hground', fun n hn => ?_⟩, fun π => ?_,
    hroomy' (fun h => absurd h (Nat.not_le.mpr hmade)) hroomy, hmade, Nat.le_trans hcount hcount'⟩
  · exact (hfresh n hn).elim (hlate n) (Nat.le_trans hcount)
  · rw [hshown π (by simp [placesOf, entriesOf]) fun _ _ => hheld π, hheld π, overlay_self]

/-- The first rendering under a node with nothing on it. -/
theorem of_render (hblank : σ.host.Blank p) (hknown : P.Known σ.world s.lexems)
    (hpass : e.render b p s σ = .ok r σ') (hbare : Bare r.slots) :
    r.sentence = s ∧ Faithful P e σ.host.count p r σ' := by
  have hbrought := renderWithin_keeps Engine.depthLimit hpass ⟨hknown, by simp [Phrase.new]⟩ hbare
  have hshift := renderWithin_shift (T := .still b) hpass fun _ => hbare
  obtain ⟨hpaired, hturn⟩ := hshift.renewal (by simp)
  replace hshift := hshift.shift (by simp)
  rw [slotsOf_cons, slotsOf_nil, List.append_nil] at hturn hshift
  have hblock : Block (.still b) σ p [] [] [] [] :=
    ⟨by simpa using hblank.children, by simp, List.nodup_nil, by simp, by simpa using ⟨hblank.made, fun h => h⟩, by simp,
      fun _ h => h.elim⟩
  obtain ⟨cs, hholds, hexchange⟩ := hturn [] .nil (mounted_blind List.nodup_nil)
  obtain ⟨tops, owned, hplaced, hblock', -⟩ := hshift.moved .nil List.nodup_nil .nil hblock rfl
  have hstanding : Standing (.still b) p [] [] r σ' cs tops owned :=
    ⟨hpaired r List.mem_cons_self, hholds, hexchange.mounted.nodup, hplaced, hblock'⟩
  have hnode : ∀ n : NodeId, σ.host.count ≤ n.index → σ.host.children n = [] := fun n hn => by
    rw [Host.children, Host.node, Array.getD_eq_getD_getElem?, Array.getElem?_eq_none hn]
    rfl
  obtain ⟨slots, rfl, -⟩ := Engine.renderPhrase_ok hpass
  refine ⟨rfl, of_brought hbrought ⟨cs, tops, owned, hstanding⟩ .nil ⟨by simp, by simpa using hblank.made⟩ (by simp)
    (fun π => ?_) (fun n hn _ => hnode n hn) hblank.made (Nat.le_refl _)⟩
  rw [hblank.content, Content.held_new]
  rfl

/-- A diff takes the output to the next sentence. -/
theorem diff (h : Faithful P e k p r σ) (hknown : P.Known σ.world s.lexems)
    (hpass : e.diff b p s r σ = .ok r' σ') (hbare : Bare r'.slots)
    (htidy : Tidy e r.sentence.lexems r.slots s.lexems r'.slots) :
    r'.sentence = s ∧ Faithful P e k p r' σ' := by
  obtain ⟨cs, tops, owned, hstanding⟩ := h.standing
  obtain ⟨nodes, hdepicts, hground, hlate⟩ := h.depicts
  have hgrown := h.sprung.grown
  simp only [lexemsOf_cons, lexemsOf_nil, slotsOf_cons, slotsOf_nil, List.append_nil] at hgrown
  have hsentence : r'.sentence = s := by
    rcases Engine.diffPhrase_ok hstanding.paired hpass with ⟨hreuses, -⟩ | ⟨-, slots, rfl, -⟩
    · simp [Engine.reuses, Phrase.new] at hreuses
    · rfl
  obtain ⟨-, -, hbrought⟩ := diffWithin_keeps Engine.depthLimit (Cursor.root p) _ hpass (P.refl _)
    ⟨hknown, by simp [Phrase.new]⟩ h.sprung hbare
  have hshift := diffWithin_shift (T := .still b) hpass (fun _ => hgrown.bare) fun _ => hbare
  rw [hsentence] at hbrought
  refine ⟨hsentence, of_brought (hbrought htidy) (hstanding.shift hshift) ?_ hground hlate ?_ h.roomy h.made h.count⟩
  · simpa using hdepicts
  · simpa using h.held

/-- Worlds may go on between two passes, and components of no concern may come and go. -/
theorem meanwhile (h : Faithful P e k p r σ) (hlater : P.later σ.world σ'.world)
    (hnodes : σ'.host.nodes = σ.host.nodes) : Faithful P e k p r σ' := by
  obtain ⟨cs, tops, owned, hstanding⟩ := h.standing
  obtain ⟨nodes, hdepicts, hground, hlate⟩ := h.depicts
  have hgrown := h.sprung.grown
  simp only [lexemsOf_cons, lexemsOf_nil, slotsOf_cons, slotsOf_nil, List.append_nil] at hgrown
  have hcount : σ'.host.count = σ.host.count := by rw [Host.count, hnodes, Host.count]
  have hcontent : ∀ n, σ'.host.content n = σ.host.content n := fun n => by
    rw [Host.content, Host.node, hnodes, Host.content, Host.node]
  have hchildren : ∀ n, σ'.host.children n = σ.host.children n := fun n => by
    rw [Host.children, Host.node, hnodes, Host.children, Host.node]
  have hnone : ∀ id : InstanceId, id ∈ ([] : List InstanceId) → Agree σ.instances σ'.instances id := by simp
  refine ⟨h.sprung.mono hlater, ⟨[], tops, owned, ?_⟩, ⟨nodes, hdepicts.congr fun n _ => hcontent n,
    hground.grow (Nat.le_of_eq hcount.symm), hlate⟩, fun π => by rw [hcontent, h.held], fun n hn hkind => ?_, h.made,
    hcount.symm ▸ h.count⟩
  · have hblock := hstanding.block
    refine ⟨hstanding.paired, hgrown.holds _, List.nodup_nil, hstanding.placed.congr (hgrown.holds _) hnone
      (Nat.le_of_eq hcount.symm) fun n _ => hchildren n,
      by rw [hchildren, hblock.children], fun n hn => hcount.symm ▸ hblock.made n hn, hblock.nodup, hblock.apart,
      fun n hn => ⟨hcount.symm ▸ (hblock.free n hn).lt, fun h => h⟩, hblock.distinct, fun _ h => h.elim⟩
  · rw [hchildren]
    exact h.roomy n hn (hcontent n ▸ hkind)

end Faithful

variable (P e) in
/-- What a sentence comes to under a parent in a run of successful passes, without hooks and components: it is
rendered, and others are diffed against it one after the other, each in the place of a tidy one before it. In between
worlds may go on. -/
inductive Engine.Runs (p : NodeId) (σ : Stage ω) : Sentence → Rendered → Stage ω → Prop
  | render {s : Sentence} {r : Rendered} {σ' : Stage ω} (hknown : P.Known σ.world s.lexems)
      (hpass : e.render b p s σ = .ok r σ') (hbare : Bare r.slots) : Runs p σ s r σ'
  | diff {s s' : Sentence} {r r' : Rendered} {σ₁ σ' : Stage ω} (hrun : Runs p σ s r σ₁)
      (hknown : P.Known σ₁.world s'.lexems) (hpass : e.diff b p s' r σ₁ = .ok r' σ') (hbare : Bare r'.slots)
      (htidy : Tidy e s.lexems r.slots s'.lexems r'.slots) : Runs p σ s' r' σ'
  | meanwhile {s : Sentence} {r : Rendered} {σ₁ σ' : Stage ω} (hrun : Runs p σ s r σ₁)
      (hlater : P.later σ₁.world σ'.world) (hnodes : σ'.host.nodes = σ₁.host.nodes) : Runs p σ s r σ'

theorem Engine.Runs.faithful (hblank : σ.host.Blank p) (h : Engine.Runs P e p σ s r σ') :
    r.sentence = s ∧ Faithful P e σ.host.count p r σ' := by
  induction h with
  | render hknown hpass hbare => exact Faithful.of_render hblank hknown hpass hbare
  | diff _ hknown hpass hbare htidy ih =>
      obtain ⟨rfl, hfaithful⟩ := ih
      exact hfaithful.diff hknown hpass hbare htidy
  | meanwhile _ hlater hnodes ih => exact ⟨ih.1, ih.2.meanwhile hlater hnodes⟩

/-- What has been brought to a sentence can be rendered afresh. -/
theorem Faithful.rendered {σ₀ : Stage ω} (p₀ : NodeId) (h : Faithful P e k p r σ) (hlater : P.later σ.world σ₀.world) :
    ∃ r₀ σ₁, e.render b p₀ r.sentence σ₀ = .ok r₀ σ₁ ∧ Bare r₀.slots ∧
      e.rowsOfSlots r₀.sentence.lexems r₀.slots = e.rowsOfSlots r.sentence.lexems r.slots := by
  have hgrown := h.sprung.grown
  simp only [lexemsOf_cons, lexemsOf_nil, slotsOf_cons, slotsOf_nil, List.append_nil] at hgrown
  have hserves : List.Forall₂ (e.Serves (P.alike σ₀.world)) r.sentence.lexems r.sentence.lexems :=
    (hgrown.mono hlater).known.imp fun _ _ => .of_alike (P.likeness _)
  obtain ⟨slots, σ₁, hchain, -, hbare, hrows⟩ :=
    hgrown.rendered (c := Cursor.root p₀) hlater hserves rfl
  have hpass : e.render b p₀ r.sentence σ₀ = .ok ⟨none, r.sentence, slots⟩ σ₁ :=
    bind_eq_ok.mpr ⟨slots, σ₁, mapM_eq_ok.mpr hchain, rfl⟩
  exact ⟨_, σ₁, hpass, hbare, hrows⟩

end Runs

/-- Whether an argument is a text, a list of texts that goes by its identity, or a function. -/
def Arg.Elementary (texts : Identity → List String) : Arg → Prop
  | .null | .bool _ | .str _ | .render _ => True
  | .list i items => items = (texts i).map .str
  | _ => False

/-- A behaviour in which nothing happens can be relied on, whatever it is called with. -/
def Purity.inert (texts : Identity → List String) : Purity Behaviour.inert where
  later _ _ := True
  alike _ a a' := a = a' ∧ a.Elementary texts
  refl _ := trivial
  trans _ _ := trivial
  likeness _ :=
    { null := ⟨rfl, trivial⟩
      resembles := by
        rintro a _ ⟨rfl, ha⟩
        cases a with
        | list i items =>
            obtain rfl : items = (texts i).map .str := ha
            refine .list (List.forall₂_same.mpr fun item hitem => ?_)
            obtain ⟨text, -, rfl⟩ := List.mem_map.mp hitem
            exact ⟨rfl, trivial⟩
        | null | bool | str | render => constructor
        | _ => exact ha.elim
      symm := by
        rintro a _ ⟨rfl, ha⟩
        exact ⟨rfl, ha⟩
      trans := by
        rintro a _ _ ⟨rfl, ha⟩ ⟨rfl, -⟩
        exact ⟨rfl, ha⟩ }
  mono _ h := h
  same := by
    rintro w a a' ⟨-, ha⟩ ⟨-, ha'⟩ hsame
    cases a <;> cases a' <;> simp_all [Arg.same, Arg.Elementary]
  run _ _ _ _ :=
    { goesOn := fun _ _ => trivial
      known := fun _ h => by
        cases h
        exact .nil
      again := fun _ h _ _ => by
        cases h
        exact ⟨_, (), rfl, trivial, .nil⟩ }
  render _ :=
    { goesOn := fun _ _ => trivial
      known := fun _ h => by
        cases h
        exact .nil
      again := fun _ h _ _ => by
        cases h
        exact ⟨_, (), rfl, trivial, .nil⟩ }
  callback := ⟨fun _ _ => trivial, fun _ _ => trivial, fun _ _ _ _ => ⟨(), (), rfl, trivial, trivial⟩⟩

/-- A sentence rendered, another one diffed against it, and that one rendered afresh, as far as it can be checked. -/
theorem Pass.exists_of_diff (b : Behaviour ω) (e : Engine) (p : NodeId) (s s' : Sentence) (σ σ₀ : Stage ω)
    (f : Rendered → Rendered → Host → Host → Bool)
    (h : Pass.check (e.render b p s) σ (fun r σ₁ => Pass.check (e.diff b p s' r) σ₁ fun r' σ₂ =>
      Pass.check (e.render b p s') σ₀ fun _ σ₃ => f r r' σ₂.host σ₃.host) = true) :
    ∃ r σ₁ r' σ₂ r₀ σ₃, e.render b p s σ = .ok r σ₁ ∧ e.diff b p s' r σ₁ = .ok r' σ₂ ∧
      e.render b p s' σ₀ = .ok r₀ σ₃ ∧ f r r' σ₂.host σ₃.host = true := by
  obtain ⟨r, σ₁, hrender, h⟩ := exists_of_check h
  obtain ⟨r', σ₂, hdiff, h⟩ := exists_of_check h
  obtain ⟨r₀, σ₃, hfresh, h⟩ := exists_of_check h
  exact ⟨r, σ₁, r', σ₂, r₀, σ₃, hrender, hdiff, hfresh, h⟩

/-- A title, and texts in a paragraph. -/
def Sentence.page (title : String) (i : Identity) (texts : List String) : Sentence :=
  .plain [("attr", [.str "title", .str title]), ("tag", [.str "p", .list i (texts.map .str)])]

theorem Sentence.page_known {texts : Identity → List String} (title : String) (i : Identity) :
    (Purity.inert texts).Known () (Sentence.page title i (texts i)).lexems :=
  .cons ⟨rfl, rfl, .cons ⟨rfl, trivial⟩ (.cons ⟨rfl, trivial⟩ .nil)⟩
    (.cons ⟨rfl, rfl, .cons ⟨rfl, trivial⟩ (.cons ⟨rfl, rfl⟩ .nil)⟩ .nil)

/-- Outputs of a page of one text and of one of two. -/
def Rendered.paged (r r' : Rendered) : Bool :=
  match r.slots, r'.slots with
  | [.attribute, .element _ [⟨_, ⟨_, _, [⟨_, _, _ :: _⟩]⟩, [.text _]⟩]],
    [.attribute, .element _ [⟨_, ⟨_, _, [⟨_, _, _ :: _⟩]⟩, [.text _]⟩, ⟨_, _, [.text _]⟩]] => true
  | _, _ => false

end Parlance
