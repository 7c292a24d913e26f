import Parlance.Proofs.Engine.Refreshing

/-! A rendering puts all properties of its words: the slots are gone through one by one, and what one word has put is
left alone by those after it. -/

namespace Parlance

open Pass

variable {ω : Type} {b : Behaviour ω} {e : Engine} {c : Cursor} {lexem : Lexem} {slot : Slot} {p q : NodeId}
variable {σ σ₀ σ₁ σ' : Stage ω} {t t₁ : Array Instance} {lexems lexems₂ : List Lexem} {slots slots₂ : List Slot}
variable {cs : List InstanceId} {posts : List Post} {rs : List Rendered}
variable {render : Cursor → Phrase → Pass ω Rendered}

/-- What has come out of nothing shows the properties of its words, if they are in order. -/
def Fills (e : Engine) (p : NodeId) (σ σ' : Stage ω) (lexems : List Lexem) (slots : List Slot) : Prop :=
  p.index < σ.host.count → Proper e σ'.instances p lexems slots →
    ∀ word ∈ wordsIn σ'.instances p lexems slots, ∀ k, e.property? word = some k → σ'.host.Shows word

variable (b e) in
/-- A rendering as deep as one likes puts all properties of its words. -/
structure RenderFills (render : Cursor → Phrase → Pass ω Rendered) : Prop where
  evolves : ∀ ρ : Regime, ρ.Admits e → RenderEvolves ρ b render
  renders : Renders (Watch.blind b) render
  fills : ∀ ⦃c phrase σ r σ'⦄, render c phrase σ = .ok r σ' → Fills e c.parent σ σ' r.sentence.lexems r.slots

/-- Words that are the first of others are in order if these are. -/
theorem Proper.of_words {rest : List (NodeId × Lexem)} (h : Proper e t p lexems slots)
    (hwords : wordsIn t p lexems slots = wordsIn t₁ q lexems₂ slots₂ ++ rest) : Proper e t₁ q lexems₂ slots₂ where
  distinct := by
    have hdistinct := h.distinct
    rw [Engine.propertiesIn, hwords, List.filterMap_append] at hdistinct
    exact (List.nodup_append.mp hdistinct).1
  numbers word hword := h.numbers word (hwords ▸ List.mem_append_left _ hword)

/-- The words of a component that has got an output are those of the output, and its own. -/
theorem wordsIn_modified {ρ : Regime} {id : InstanceId} {g : Instance → Instance} {r : Rendered}
    (hholds : Holds t₁ [.component id] cs) (hcensus : Census ρ t₁ p [lexem] [.component id] posts)
    (hmodified : t₁ = t.modify id.index g) (hdeveloped : ∀ i, (g i).developed = some r) :
    wordsIn t₁ p [lexem] [.component id] = wordsIn t p r.sentence.lexems r.slots ++ [(p, lexem)] ∧
      ∃ inner, Holds t r.slots inner ∧ ∀ child ∈ inner, Agree t t₁ child := by
  obtain ⟨i, r', inner, -, hpresent, hown, -, hlater, hinner⟩ := hholds.of_component
  obtain rfl : r' = r := by
    rw [hmodified, Array.getElem?_modify, if_pos rfl, Option.map_eq_some_iff] at hpresent
    obtain ⟨i', -, rfl⟩ := hpresent
    exact (Option.some.inj ((hdeveloped i').symm.trans hown)).symm
  obtain ⟨-, witness, -, hparent, -⟩ := hcensus.of_component hpresent hown
  have hagree : ∀ child ∈ inner, Agree t t₁ child := fun child hchild => hmodified ▸
    agree_modify _ _ fun heq => absurd (hlater child hchild) (heq ▸ Nat.lt_irrefl _)
  have hback : ∀ child ∈ inner, Agree t₁ t child := fun child hchild => Eq.symm (hagree child hchild)
  refine ⟨?_, inner, hinner.congr hback, hagree⟩
  rw [wordsIn_component hholds hpresent hown hparent, wordsIn_congr hinner hback]

namespace Fills

theorem refreshes (h : Fills e p σ σ' lexems slots) (overlooked : NodeId × Lexem → Prop) :
    Refreshes e p σ [] [] σ' lexems slots overlooked := fun _ _ _ _ _ hgrounded hfair word hword k hk =>
  .inl (h hgrounded.parent hfair.proper word hword k hk)

theorem of_refreshes {overlooked : NodeId × Lexem → Prop} (h : Refreshes e p σ [] [] σ' lexems slots overlooked) :
    Fills e p σ σ' lexems slots := fun hp hproper word hword k hk => by
  rcases h .nil List.nodup_nil .nil ⟨hp, by simp [elementsOf]⟩ (.fresh hproper) word hword k hk with hshows | ⟨-, hold, -⟩
  · exact hshows
  · simp [wordsIn_nil] at hold

theorem nil : Fills e p σ σ' [] slots := fun _ _ word hword => by simp [wordsIn_nil] at hword

/-- What is put after something leaves that alone. -/
theorem append (hhooks : b.LeavesProperties) (hlength : lexems.length = slots.length)
    (hfirst : Evolving b e p σ [] [] σ₁ lexems slots) (hsecond : Evolving b e p σ₁ [] [] σ' lexems₂ slots₂)
    (h : Fills e p σ σ₁ lexems slots) (h' : Fills e p σ₁ σ' lexems₂ slots₂) :
    Fills e p σ σ' (lexems ++ lexems₂) (slots ++ slots₂) := by
  have hbeside : Beside [] [] [] [] lexems := .inr ⟨rfl, rfl⟩
  have hboth : Refreshes e p σ [] [] σ' (lexems ++ lexems₂) (slots ++ slots₂) fun _ => False :=
    Refreshes.append hhooks rfl hlength (fun _ _ => hbeside.orderly rfl hlength) hfirst hsecond
      (h.refreshes fun _ => False) (h'.refreshes fun _ => False) (fun _ _ _ => id) fun _ _ _ => id
  exact .of_refreshes hboth

/-- A slot shows the properties of what is inside it, if its own word has none. -/
theorem part (hslot : ∀ id, slot ≠ .component id) (hpaired : ∀ r ∈ slot.parts, r.Paired)
    (hown : e.property? (p, lexem) = none)
    (h : Fills e (slot.inside p) σ₀ σ₁ (lexemsOf slot.parts) (slotsOf slot.parts))
    (hstart : p.index < σ.host.count → (slot.inside p).index < σ₀.host.count) (hsame : σ'.instances = σ₁.instances)
    (hkept : ∀ n name, n.index < σ₁.host.count → σ'.host.property? n name = σ₁.host.property? n name) :
    Fills e p σ σ' [lexem] [slot] := by
  intro hp hproper word hword k hk
  have hwords : wordsIn σ'.instances p [lexem] [slot] = _ := wordsIn_part hslot hpaired
  have hinner := hproper.of_words hwords
  rw [hsame] at hinner
  rw [hwords, hsame, List.mem_append, List.mem_singleton] at hword
  rcases hword with hword | rfl
  · have hshows := h (hstart hp) hinner word hword k hk
    exact hshows.congr fun name _ => hkept word.1 name hshows.made
  · simp [hown] at hk

/-- The word for a property shows it. -/
theorem own (hspace : e.isTarget lexem.space = true) (hword : e.instruction? lexem = some .prop)
    (hshows : p.index < σ.host.count → (∀ value, lexem.scalarArg 1 = .ok value → value.equals value = true) →
      σ'.host.Shows (p, lexem)) : Fills e p σ σ' [lexem] [.attribute] := by
  intro hp hproper word hmem k _
  have hwords : wordsIn σ'.instances p [lexem] [.attribute] = _ := wordsIn_part (by simp) (by simp [Slot.parts])
  have hown : word = (p, lexem) := by simpa [hwords, Slot.parts, wordsIn_nil] using hmem
  subst hown
  exact hshows hp (hproper.numbers _ hmem _ (Engine.property?_eq_some.mpr ⟨hspace, hword, rfl⟩))

/-- A slot without parts has only its own word. -/
theorem single (hslot : ∀ id, slot ≠ .component id) (hparts : slot.parts = []) (hown : e.property? (p, lexem) = none) :
    Fills e p σ σ' [lexem] [slot] := by
  intro _ _ word hword k hk
  rw [wordsIn_part hslot (by simp [hparts]), hparts, lexemsOf_nil, wordsIn_nil, List.nil_append,
    List.mem_singleton] at hword
  rw [hword, hown] at hk
  cases hk

end Fills

theorem Evolving.of_rendered {phrase : Phrase} {r : Rendered} (h : RenderFills b e render)
    (hr : render c phrase σ = .ok r σ') :
    r.Paired ∧ Evolving b e c.parent σ [] [] σ' r.sentence.lexems r.slots := by
  refine ⟨((h.renders hr) (by simp)).1 r List.mem_cons_self, fun ρ hadmits => ⟨Ahead c.anchor, ?_⟩⟩
  simpa using (h.evolves ρ hadmits hr).evolves (by simp)

/-- Outputs that are rendered one after the other show the properties of their words. -/
theorem chain_fills (hhooks : b.LeavesProperties) (h : RenderFills b e render) {phrases : List Phrase}
    (hchain : Chain (render c) phrases σ rs σ') :
    (∀ r ∈ rs, r.Paired) ∧ Fills e c.parent σ σ' (lexemsOf rs) (slotsOf rs) := by
  induction hchain with
  | nil => exact ⟨by simp, .nil⟩
  | cons head tail ih =>
      obtain ⟨hpaired, hfirst⟩ := Evolving.of_rendered h head
      refine ⟨List.forall_mem_cons.mpr ⟨hpaired, ih.1⟩, ?_⟩
      rw [lexemsOf_cons, slotsOf_cons]
      refine .append hhooks hpaired.symm hfirst (fun ρ hadmits => ⟨Ahead c.anchor, ?_⟩) (h.fills head) ih.2
      exact (chain_evolves (fun hr => h.evolves ρ hadmits hr) tail).evolves (by simp)

theorem Host.property?_putMarker {h : Host} {n : NodeId} (hn : n.index < h.count) (label name : String) :
    (h.putMarker c label).property? n name = h.property? n name := by
  have hne : n ≠ h.next := fun heq => by
    rw [heq] at hn
    exact Nat.lt_irrefl _ hn
  have hmakes : Makes (.marker label) c.parent h (h.putMarker c label) := putNode_makes h c.parent _ c.anchor _
  rw [Host.property?, Host.property?, hmakes.content, if_neg hne]

/-- A word for a property shows its value, if that is no NaN. -/
theorem Host.shows_writeAll {h : Host} {ws : List Write} (hp : p.index < h.count) (hwrites : lexem.writes .prop = some ws)
    (hnumber : ∀ value, lexem.scalarArg 1 = .ok value → value.equals value = true) :
    (h.writeAll p ws).Shows (p, lexem) := by
  obtain ⟨name, value, hname, hvalue, rfl⟩ := Lexem.property_of_writes hwrites
  refine ⟨name, value, hname, hvalue, ?_⟩
  have hput : (h.writeAll p [.property name value]).property? p name = some value := property?_setProperty hp name value
  rw [hput]
  exact hnumber value hvalue

/-- Rendering a lexem puts the properties of its words. -/
theorem RenderStep.fills (hhooks : b.LeavesProperties) (h : RenderFills b e render)
    (hstep : Engine.RenderStep b render e c lexem σ slot σ') : Fills e c.parent σ σ' [lexem] [slot] := by
  have hevolves := RenderStep.evolves (Evolving.admits e) (h.evolves _ (Evolving.admits e)) h.renders hstep
  cases hstep with
  | skipped hspace =>
      refine .single (by simp) rfl (if_neg fun hown => ?_)
      rw [hspace] at hown
      cases hown.1
  | compound _ hword _ hinner =>
      have hparts := chain_fills hhooks h (Chain.cons hinner .nil)
      exact .part (by simp) hparts.1 (Engine.property?_eq_none hword (by simp)) hparts.2 id rfl fun _ _ _ => rfl
  | @«attribute» i ws hspace hword hwrites =>
      by_cases hprop : i = .prop
      · subst hprop
        exact .own hspace hword fun hp hnumber => Host.shows_writeAll hp hwrites hnumber
      · exact .single (by simp) rfl (Engine.property?_eq_none hword (by simpa using hprop))
  | text _ hword | raw _ hword | listener _ hword | hook _ hword | callback _ hword | name _ hword =>
      exact .single (by simp) rfl (Engine.property?_eq_none hword (by simp))
  | @element tag _ _ _ _ hword _ _ hinner =>
      have hparts := chain_fills hhooks h hinner
      refine .part (by simp) hparts.1 (Engine.property?_eq_none hword (by simp)) hparts.2 (fun hp => ?_) rfl
        fun _ _ _ => rfl
      have hadds : Host.Adds c.parent c.anchor σ.host (σ.host.putElement c tag) := Host.putNode_adds _ rfl hp
      rw [Stage.onHost_host, hadds.puts.count]
      exact Nat.lt_succ_self _
  | @branch i _ _ _ _ _ _ _ hword hchoice _ hinner =>
      have hparts := chain_fills hhooks h hinner
      have hother : i ≠ .prop := by rintro rfl; cases hchoice
      exact .part (by simp) hparts.1 (Engine.property?_eq_none hword (by simpa using hother)) hparts.2 id rfl
        fun n name hn => Host.property?_putMarker hn _ name
  | each _ hword _ hinner =>
      have hparts := chain_fills hhooks h hinner
      exact .part (by simp) hparts.1 (Engine.property?_eq_none hword (by simp)) hparts.2 id rfl
        fun n name hn => Host.property?_putMarker hn _ name
  | @component factory _ _ _ _ _ r σ' _ hword _ _ _ _ hinner _ =>
      obtain ⟨cs, hholds, -⟩ := hevolves.turn [] .nil (mounted_blind List.nodup_nil)
      obtain ⟨posts, hcensus, -⟩ := hevolves.moves .nil List.nodup_nil .nil .fresh
      obtain ⟨hwords, -⟩ := wordsIn_modified (t := σ'.instances)
        (g := fun i => { i with developed := some r, witness := some σ'.host.next }) hholds hcensus rfl fun _ => rfl
      intro hp hproper word hmem k hk
      rw [hwords, List.mem_append, List.mem_singleton] at hmem
      rcases hmem with hmem | rfl
      · have hshows := h.fills hinner hp (hproper.of_words hwords) word hmem k hk
        exact hshows.congr fun name _ => Host.property?_putMarker hshows.made _ name
      · rw [Engine.property?_eq_none hword (by simp)] at hk
        cases hk

/-- The slots of a sentence that is rendered show the properties of its words. -/
theorem renderChain_fills (hhooks : b.LeavesProperties) (h : RenderFills b e render)
    (hchain : Chain (Engine.renderLexem b render e c) lexems σ slots σ') : Fills e c.parent σ σ' lexems slots := by
  induction hchain with
  | nil => exact .nil
  | cons head tail ih =>
      refine .append hhooks rfl (fun ρ hadmits => ⟨Ahead c.anchor, ?_⟩) (fun ρ hadmits => ⟨Ahead c.anchor, ?_⟩)
        (RenderStep.fills hhooks h (Engine.renderLexem_step head)) ih
      · exact RenderStep.evolves hadmits (h.evolves ρ hadmits) h.renders (Engine.renderLexem_step head)
      · exact renderChain_evolves hadmits (h.evolves ρ hadmits) h.renders tail

theorem renderWithin_fills (hhooks : b.LeavesProperties) {depth : Nat} :
    RenderFills b e (Engine.renderWithin b depth e) := by
  refine ⟨fun ρ hadmits => renderWithin_evolves hadmits, renderWithin_renewal _, ?_⟩
  induction depth with
  | zero =>
      intro c phrase σ r σ' h
      cases h
  | succ depth ih =>
      intro c phrase σ r σ' h
      obtain ⟨slots, rfl, hchain⟩ := Engine.renderPhrase_ok h
      exact renderChain_fills hhooks ⟨fun ρ hadmits => renderWithin_evolves hadmits, renderWithin_renewal _, ih⟩ hchain

end Parlance
