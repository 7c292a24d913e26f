import Parlance.Proofs.Engine.Filling

/-! How a diff with live properties revises an output. Where it goes into a slot, the properties of the words inside are
put right: what was typed into them is replaced by the values of the words. What it does not go into is overlooked, and
of what is rendered anew nothing is. -/

namespace Parlance

open Pass

variable {ω : Type} {ρ : Regime} {b : Behaviour ω} {e : Engine} {c : Cursor} {lexem old : Lexem} {slot slot' : Slot}
variable {p : NodeId} {σ σ₁ σ' : Stage ω} {t t' t₁ t₁' : Array Instance} {posts posts' : List Post}
variable {rs rs' rest : List Rendered} {r previous : Rendered} {cs cs' : List InstanceId} {goal : List NodeId → Prop}

section Elements

/-- Elements that come with a move are new. -/
theorem Move.elements {least : Nat} (h : Move ρ b σ posts σ' posts') (hleast : least ≤ σ.host.count)
    (hposts : ∀ n ∈ elementsOf posts, least ≤ n.index) : ∀ n ∈ elementsOf posts', least ≤ n.index := by
  intro n hn
  cases h with
  | acted | tabled | worded => exact hposts n hn
  | @raised left right q lexem =>
      simp only [elementsOf_append, elementsOf_cons, Post.element?, List.mem_append, Option.mem_toList] at hn hposts
      rcases hn with hn | heq | hn
      · exact hposts n (.inl hn)
      · cases heq
        exact hleast
      · exact hposts n (.inr hn)
  | _ =>
      refine hposts n ?_
      simp only [elementsOf_append, elementsOf_cons, Post.element?, List.mem_append, Option.mem_toList] at hn ⊢
      tauto

/-- What has come out of nothing is on new elements, but for what is on the parent. -/
theorem Evolves.elements {anchor : Option NodeId} {lexems : List Lexem} {slots : List Slot}
    (h : Evolves (.lasting e) b p (Ahead anchor) σ [] [] σ' lexems slots) (hhooks : b.LeavesProperties)
    (hp : p.index < σ.host.count) : ∃ posts, Census (.lasting e) σ'.instances p lexems slots posts ∧
      ∀ n ∈ elementsOf posts, σ.host.count ≤ n.index := by
  obtain ⟨posts, hposts, hmoves, -⟩ := h.moves .nil List.nodup_nil .nil .fresh
  -- the anchor passes for a node that stands next
  let next : List Post := [⟨p, ⟨"", "", []⟩, .nodes anchor.toList⟩]
  have hrow : Moves (.lasting e) b σ ([] ++ [] ++ next) σ' ([] ++ posts ++ next) :=
    hmoves (fun hcall => (hhooks p "" hcall).1) (fun _ _ => trivial) [] next ⟨hp, by simp [elementsOf]⟩ fun _ => by
      cases anchor <;> simp [Ahead, topsAt, next, Mark.tops]
  have hnew := hrow.preserves (I := fun τ ps => σ.host.count ≤ τ.host.count ∧ ∀ n ∈ elementsOf ps, σ.host.count ≤ n.index)
    (fun hmove hsofar => ⟨Nat.le_trans hsofar.1 hmove.count_le, hmove.elements hsofar.1 hsofar.2⟩)
    ⟨Nat.le_refl _, by simp [elementsOf, next, Post.element?]⟩
  exact ⟨posts, hposts, fun n hn => hnew.2 n (by simp [hn])⟩

end Elements

section Outputs

/-- What is overlooked among outputs: something inside of them, or one that is kept. -/
def Among (e : Engine) (t t' : Array Instance) (p : NodeId) (skips : Nat → Rendered → Prop) (rs rs' : List Rendered)
    (word : NodeId × Lexem) : Prop :=
  Overlooks e t t' word p (lexemsOf rs) (slotsOf rs) (lexemsOf rs') (slotsOf rs') ∨
    ∃ index r, rs[index]? = some r ∧ rs'[index]? = some r ∧ skips index r ∧ word ∈ r.words t' p

/-- A slot that comes in the place of another is refreshed, but for what is overlooked. -/
def Revises (e : Engine) (p : NodeId) (σ : Stage ω) (old : Lexem) (slot : Slot) (σ' : Stage ω) (lexem : Lexem)
    (slot' : Slot) : Prop :=
  Refreshes e p σ [old] [slot] σ' [lexem] [slot']
    fun word => Overlooks e σ.instances σ'.instances word p [old] [slot] [lexem] [slot']

/-- Outputs that come in the place of others are refreshed, but for what is overlooked. -/
def RevisesAll (e : Engine) (p : NodeId) (skips : Nat → Rendered → Prop) (σ : Stage ω) (rs : List Rendered)
    (σ' : Stage ω) (rs' : List Rendered) : Prop :=
  Refreshes e p σ (lexemsOf rs) (slotsOf rs) σ' (lexemsOf rs') (slotsOf rs')
    (Among e σ.instances σ'.instances p skips rs rs')

variable {skips : Nat → Rendered → Prop} {first : Rendered → Prop}

namespace RevisesAll

theorem mono {skips' : Nat → Rendered → Prop} (h : RevisesAll e p skips σ rs σ' rs')
    (hmono : ∀ index r, skips index r → skips' index r) : RevisesAll e p skips' σ rs σ' rs' :=
  Refreshes.mono h fun _ => Or.imp_right fun ⟨index, r, hold, hnew, hskips, hword⟩ =>
    ⟨index, r, hold, hnew, hmono index r hskips, hword⟩

theorem nil : RevisesAll e p skips σ rs σ' [] :=
  Refreshes.idle fun word hword => by simp [wordsIn_nil] at hword

/-- An output that is kept is as it was. -/
theorem still (hskips : skips 0 r) : RevisesAll e p skips σ [r] σ [r] := fun _ _ _ _ _ _ _ word hword _ _ => by
  refine .inr ⟨.inr ⟨0, r, rfl, rfl, hskips, ?_⟩, hword, rfl⟩
  rw [Rendered.words_eq]
  simpa using hword

theorem fresh (h : Fills e p σ σ' (lexemsOf rs) (slotsOf rs)) : RevisesAll e p skips σ [] σ' rs := h.refreshes _

/-- One output after another, each in the place of one. -/
theorem cons (hhooks : b.LeavesProperties) (hold : previous.Paired) (hr : r.Paired)
    (hmatched : r.sentence.lexems.length = previous.sentence.lexems.length)
    (hfirst : Evolving b e p σ (lexemsOf [previous]) (slotsOf [previous]) σ₁ (lexemsOf [r]) (slotsOf [r]))
    (hsecond : Evolving b e p σ₁ (lexemsOf rs) (slotsOf rs) σ' (lexemsOf rs') (slotsOf rs'))
    (hskips : ∀ r, first r → skips 0 r) (h : RevisesAll e p (fun _ => first) σ [previous] σ₁ [r])
    (h' : RevisesAll e p (fun index => skips (index + 1)) σ₁ rs σ' rs') :
    RevisesAll e p skips σ (previous :: rs) σ' (r :: rs') := by
  have hbeside : Beside (lexemsOf [previous]) (lexemsOf rs) (slotsOf [previous]) (slotsOf rs) (lexemsOf [r]) :=
    .inl (by simpa using hmatched.symm)
  have hlength : (lexemsOf [previous]).length = (slotsOf [previous]).length := by simpa using hold.symm
  have hlength' : (lexemsOf [r]).length = (slotsOf [r]).length := by simpa using hr.symm
  have hcons : ∀ r (rs : List Rendered), lexemsOf (r :: rs) = lexemsOf [r] ++ lexemsOf rs ∧
      slotsOf (r :: rs) = slotsOf [r] ++ slotsOf rs := fun r rs => by simp [lexemsOf_cons, slotsOf_cons]
  have hplaces := hbeside.places hlength hlength' (lexemsOf rs') (slotsOf rs')
  rw [← (hcons previous rs).1, ← (hcons previous rs).2, ← (hcons r rs').1, ← (hcons r rs').2] at hplaces
  unfold RevisesAll
  rw [(hcons previous rs).1, (hcons previous rs).2, (hcons r rs').1, (hcons r rs').2]
  refine Refreshes.append hhooks hlength hlength' (fun _ _ => hbeside.orderly hlength hlength') hfirst hsecond h h' ?_ ?_
  · rintro as as' word ha ha' hagree (hinside | ⟨index, kept, hkept, hsame, hskip, hword⟩)
    · refine .inl ((hinside.congr ha ha' (fun _ _ => rfl) hagree).of_places fun x hx => ?_)
      rw [← hplaces]
      exact List.mem_append_left _ hx
    · obtain ⟨rfl, rfl⟩ : index = 0 ∧ kept = r := by
        cases index with
        | zero => exact ⟨rfl, (Option.some.inj hsame).symm⟩
        | succ => simp at hsame
      refine .inr ⟨0, kept, by simpa using hkept, rfl, hskips kept hskip, ?_⟩
      rw [Rendered.words_eq] at hword ⊢
      rwa [wordsIn_congr (by simpa using ha') hagree]
  · rintro cs cs' word hc hc' hagree (hinside | ⟨index, kept, hkept, hsame, hskip, hword⟩)
    · refine .inl ((hinside.congr hc hc' hagree fun _ _ => rfl).of_places fun x hx => ?_)
      rw [← hplaces]
      exact List.mem_append_right _ hx
    · exact .inr ⟨index + 1, kept, by simpa using hkept, by simpa using hsame, hskip, hword⟩

end RevisesAll

/-- Outputs that are brought up to a list of things, without those that are left over. -/
theorem swept_revises {α : Type} {new : α → Stage ω → Rendered → Stage ω → Prop}
    {kept : α → Rendered → Stage ω → Rendered → Stage ω → Prop} {as : List α} {olds : List Rendered}
    (same : α → Rendered → Prop) (hhooks : b.LeavesProperties)
    (hnew : ∀ ρ : Regime, ρ.Admits e → ∀ {a σ r σ'}, new a σ r σ' → EvolvesAll ρ b p goal σ [] σ' [r])
    (hkept : ∀ ρ : Regime, ρ.Admits e → ∀ {a old σ r σ'}, kept a old σ r σ' →
      (old.Paired → r.sentence.lexems.length = old.sentence.lexems.length) ∧
        EvolvesAll ρ b p (fun _ => True) σ [old] σ' [r])
    (hfills : ∀ {a σ r σ'}, new a σ r σ' → Fills e p σ σ' r.sentence.lexems r.slots)
    (hrevises : ∀ {a old σ r σ'}, kept a old σ r σ' → old.Paired → RevisesAll e p (fun _ => same a) σ [old] σ' [r])
    (hmatching : Engine.Matching new kept as olds σ rs rest σ₁) (hrest : Sweep (teardown b p) rest σ₁ σ')
    (hpaired : ∀ r ∈ olds, r.Paired) : RevisesAll e p (fun index r => ∃ a ∈ as[index]?, same a r) σ olds σ' rs := by
  have hlasting := Evolving.admits e
  induction hmatching with
  | rest => exact .nil
  | @new _ _ r _ _ _ _ _ head tail ih =>
      have hr := ((hnew _ hlasting head).renewal (by simp)).1 r List.mem_cons_self
      refine .fresh ?_
      rw [lexemsOf_cons, slotsOf_cons]
      refine .append hhooks hr.symm (fun ρ hadmits => ⟨goal, ?_⟩) (fun ρ hadmits => ⟨goal, ?_⟩) (hfills head)
        (.of_refreshes (ih hrest (by simp)))
      · simpa using (hnew ρ hadmits head).evolves (by simp)
      · exact (swept_evolves (hnew ρ hadmits) (hkept ρ hadmits) tail hrest (by simp)).evolves (by simp)
  | @kept a _ old r _ _ _ _ _ _ head tail ih =>
      obtain ⟨hold, hpaired⟩ := List.forall_mem_cons.mp hpaired
      have hone : ∀ r' ∈ [old], r'.Paired := by simpa using hold
      have hr := ((hkept _ hlasting head).2.renewal hone).1 r List.mem_cons_self
      refine .cons hhooks hold hr ((hkept _ hlasting head).1 hold)
        (fun ρ hadmits => ⟨_, (hkept ρ hadmits head).2.evolves hone⟩)
        (fun ρ hadmits => ⟨goal, ?_⟩) (fun r hsame => ⟨a, rfl, hsame⟩) (hrevises head hold) (ih hrest hpaired)
      exact (swept_evolves (hnew ρ hadmits) (hkept ρ hadmits) tail hrest hpaired).evolves hpaired

end Outputs

/-- Where properties are compared with what the host has, a word for one shows its value after a diff, if that is no
NaN. -/
theorem Engine.live_property {h : Host} {f : Host → Host} (hlive : e.config.liveProperties = true)
    (hrewrite : e.rewrite lexem old p .prop = some f) (hp : p.index < h.count)
    (hnumber : ∀ value, lexem.scalarArg 1 = .ok value → value.equals value = true) : (f h).Shows (p, lexem) := by
  have hf : lexem.diffProperty old e.config.liveProperties p = .ok f := Except.ok_of_toOption hrewrite
  unfold Lexem.diffProperty at hf
  rw [hlive] at hf
  cases hname : lexem.stringArg 0 with
  | error => rw [hname] at hf; cases hf
  | ok name =>
  cases holdName : old.stringArg 0 with
  | error => rw [hname, holdName] at hf; cases hf
  | ok oldName =>
  cases hvalue : lexem.scalarArg 1 with
  | error => rw [hname, holdName, hvalue] at hf; cases hf
  | ok value =>
  refine ⟨name, value, hname, hvalue, ?_⟩
  have hput : ∀ h : Host, p.index < h.count → ((h.setProperty p name value).property? p name).any value.equals = true :=
    fun h hp => by
      rw [Host.property?_setProperty hp]
      exact hnumber value hvalue
  rw [hname, holdName, hvalue] at hf
  change (if name ≠ oldName then _ else _) = _ at hf
  split at hf
  · cases hf
    exact hput _ (by simpa [Host.removeProperty, Host.modifyContent] using hp)
  · rw [if_pos rfl] at hf
    cases hf
    dsimp only
    split
    next hsame => exact hsame
    next => exact hput h hp

section Slots

/-- What is inside a slot stands on nodes of the host. -/
theorem Grounded.inside {h : Host} (hgrounded : Grounded h p (posts ++ [⟨p, old, slot.mark⟩])) :
    Grounded h (slot.inside p) posts := by
  refine ⟨?_, hgrounded.left.elements⟩
  cases slot with
  | element n kids => exact hgrounded.elements n (mem_elementsOf.mpr ⟨⟨p, old, .element n⟩, by simp [Slot.mark], rfl⟩)
  | _ => exact hgrounded.parent

namespace Revises

/-- A slot is revised as what is inside it. -/
theorem part (overlooked : NodeId × Lexem → Prop) (hslot : ∀ id, slot ≠ .component id) (hslot' : ∀ id, slot' ≠ .component id)
    (hinside : slot'.inside p = slot.inside p) (hown : e.property? (p, lexem) = none)
    (hpaired' : (∀ r ∈ slot.parts, r.Paired) → ∀ r ∈ slot'.parts, r.Paired)
    (h : ∀ {cs posts}, (∀ r ∈ slot.parts, r.Paired) → Holds σ.instances (slotsOf slot.parts) cs → cs.Nodup →
      Census (.lasting e) σ.instances (slot.inside p) (lexemsOf slot.parts) (slotsOf slot.parts) posts →
      Grounded σ.host (slot.inside p) posts →
      (e.renews lexem old = false → Seemly e σ.instances σ'.instances (slot.inside p) (lexemsOf slot.parts)
        (slotsOf slot.parts) (lexemsOf slot'.parts) (slotsOf slot'.parts)) →
      Proper e σ'.instances (slot.inside p) (lexemsOf slot'.parts) (slotsOf slot'.parts) →
      Refreshed e (slot.inside p) σ (lexemsOf slot.parts) (slotsOf slot.parts) σ' (lexemsOf slot'.parts)
        (slotsOf slot'.parts) overlooked)
    (hoverlooked : ∀ word, overlooked word → Overlooks e σ.instances σ'.instances word p [old] [slot] [lexem] [slot']) :
    Revises e p σ old slot σ' lexem slot' := by
  intro cs posts hholds hnodup hcensus hgrounded hseemly word hword k hk
  cases hholds with
  | component => exact absurd rfl (hslot _)
  | part _ hpaired hinner houter =>
  cases houter
  cases hcensus with
  | component => exact absurd rfl (hslot _)
  | part _ _ hcensusInner hcensusOuter =>
  cases hcensusOuter
  have hwords : wordsIn σ.instances p [old] [slot] = _ := wordsIn_part hslot hpaired
  have hwords' : wordsIn σ'.instances p [lexem] [slot'] = _ := wordsIn_part hslot' (hpaired' hpaired)
  rw [hinside] at hwords'
  have hproper := hseemly.proper.of_words hwords'
  have hseemly' : e.renews lexem old = false → Seemly e σ.instances σ'.instances (slot.inside p) (lexemsOf slot.parts)
      (slotsOf slot.parts) (lexemsOf slot'.parts) (slotsOf slot'.parts) := fun hrenews => by
    refine ⟨?_, ?_, hproper⟩
    · cases hseemly.orderly with
      | cons _ _ hparts => exact hparts hrenews
    · have hformer := hseemly.former
      rw [Engine.propertiesIn, hwords, List.filterMap_append] at hformer
      exact (List.nodup_append.mp hformer).1
  rw [hwords', List.mem_append, List.mem_singleton] at hword
  rcases hword with hword | rfl
  · refine (h hpaired hinner (by simpa using hnodup) hcensusInner hgrounded.inside hseemly' hproper word hword k
      hk).imp_right ?_
    rintro ⟨hover, hold, hsame⟩
    exact ⟨hoverlooked word hover, hwords ▸ List.mem_append_left _ hold, hsame⟩
  · rw [hown] at hk
    cases hk

/-- A slot that a diff goes into. -/
theorem inside (hslot : ∀ id, slot ≠ .component id) (hslot' : ∀ id, slot' ≠ .component id)
    (hinside : slot'.inside p = slot.inside p) (hown : e.property? (p, lexem) = none) (hrenews : e.renews lexem old = false)
    (h : (∀ r ∈ slot.parts, r.Paired) → (∀ r ∈ slot'.parts, r.Paired) ∧
      RevisesAll e (slot.inside p) (e.Skips lexem old) σ slot.parts σ' slot'.parts) :
    Revises e p σ old slot σ' lexem slot' := by
  refine part _ hslot hslot' hinside hown (fun hpaired => (h hpaired).1)
    (fun hpaired hholds hnodup hcensus hgrounded hseemly _ =>
      (h hpaired).2 hholds hnodup hcensus hgrounded (hseemly hrenews)) ?_
  have hplace : ((old, slot), (lexem, slot')) ∈ ([old].zip [slot]).zip ([lexem].zip [slot']) := by simp
  rintro word (hinner | ⟨index, r, hold, hnew, hskips, hword⟩)
  · exact .part hplace hrenews (by rwa [hinside])
  · exact .same hplace hrenews hold hnew hskips (by rwa [hinside])

/-- A slot whose parts are rendered anew. -/
theorem renewed (hslot : ∀ id, slot ≠ .component id) (hslot' : ∀ id, slot' ≠ .component id)
    (hinside : slot'.inside p = slot.inside p) (hown : e.property? (p, lexem) = none) (hhooks : b.LeavesProperties)
    (hgone : (∀ r ∈ slot.parts, r.Paired) →
      Evolving b e (slot.inside p) σ (lexemsOf slot.parts) (slotsOf slot.parts) σ₁ [] [])
    (hpaired' : ∀ r ∈ slot'.parts, r.Paired)
    (h : Fills e (slot.inside p) σ₁ σ' (lexemsOf slot'.parts) (slotsOf slot'.parts)) :
    Revises e p σ old slot σ' lexem slot' := by
  refine part (fun _ => False) hslot hslot' hinside hown (fun _ => hpaired')
    (fun hpaired hholds hnodup hcensus hgrounded _ hproper word hword k hk => .inl ?_) fun _ => False.elim
  have hcount := (hgone hpaired).count_le hhooks hholds hnodup hcensus hgrounded .gone
  exact h (Nat.lt_of_lt_of_le hgrounded.parent hcount) hproper word hword k hk

/-- A slot without parts has only its own word. -/
theorem single (hslot : ∀ id, slot' ≠ .component id) (hparts : slot'.parts = []) (hown : e.property? (p, lexem) = none) :
    Revises e p σ old slot σ' lexem slot' := by
  refine Refreshes.idle fun word hword => ?_
  rw [wordsIn_part hslot (by simp [hparts]), hparts, lexemsOf_nil, wordsIn_nil, List.nil_append, List.mem_singleton] at hword
  rw [hword, hown]

/-- A slot that a diff leaves as it is. -/
theorem kept (hleaves : e.leaves lexem old = true) (hagree : ∀ id, Agree σ.instances σ'.instances id)
    (hsame : σ'.host = σ.host)
    (hown : ∀ {mark}, (lexem.args = [] → old.args = []) → e.Suits old mark → e.property? (p, lexem) = none) :
    Revises e p σ old slot σ' lexem slot := by
  intro cs posts hholds hnodup hcensus hgrounded hseemly word hword k hk
  have hargs : lexem.args = [] → old.args = [] := by
    cases hseemly.orderly with
    | cons hargs => exact hargs
  have hnone : e.property? (p, lexem) = none := by
    cases hcensus with
    | part _ hsuits => exact hown hargs (hsuits e rfl)
    | component _ _ _ _ _ hsuits => exact hown hargs (hsuits e rfl)
  refine .inr ⟨.kept (by simp) hleaves hword, ?_, by rw [hsame]⟩
  rw [← wordsIn_congr hholds fun id _ => hagree id]
  simp only [wordsIn, wordsOfSlots, List.mem_append, List.mem_singleton] at hword ⊢
  rcases hword with hword | rfl
  · exact .inl hword
  · rw [hnone] at hk
    cases hk

/-- A word that has left nothing has no property, and neither has one that comes in its place without arguments. -/
theorem bare {mark : Mark} (hcongruent : lexem.isCongruent old = true) (hold : old.args = []) (hsuits : e.Suits old mark) :
    e.property? (p, lexem) = none := by
  obtain ⟨hinstruction, hspaces⟩ := instruction_again (e := e) hcongruent
  refine if_neg fun ⟨hspace, hword⟩ => ?_
  rw [hword] at hinstruction
  cases hsuits with
  | nodes hnodes => exact absurd (hnodes (hspaces ▸ hspace) _ hinstruction) nofun
  | element htag => simp [hinstruction] at htag
  | entries _ hown hwrites =>
      rw [hinstruction] at hown
      cases hown
      obtain ⟨name, -, hname, -⟩ := Lexem.property_of_writes hwrites
      simp [Lexem.stringArg, Lexem.arg, argAt, hold, Lexem.invalid] at hname
  | listener _ hown => simp [hinstruction] at hown
  | hook _ hown => simp [hinstruction] at hown

/-- What counts as unchanged is overlooked. -/
theorem unchanged (hcongruent : lexem.isCongruent old = true) (h : Engine.Unchanged e lexem old σ slot) :
    Revises e p σ old slot σ lexem slot := by
  have hword : ∀ {i : Option Instruction}, e.instruction? lexem = i → i ≠ some .prop → e.leaves lexem old = true →
      Revises e p σ old slot σ lexem slot := fun hword hother hleaves =>
    kept hleaves (fun _ => rfl) rfl fun _ _ => Engine.property?_eq_none hword hother
  cases h with
  | foreign hspace =>
      refine kept (by simp [Engine.leaves, hspace]) (fun _ => rfl) rfl fun _ _ => if_neg fun hown => ?_
      rw [hspace] at hown
      cases hown.1
  | bare hargs =>
      exact kept (by simp [Engine.leaves, hargs]) (fun _ => rfl) rfl fun hlasts hsuits =>
        bare hcongruent (hlasts hargs) hsuits
  | compound hnone hargs => exact hword hnone (by simp) (by simp [Engine.leaves, hnone, hargs])
  | text htext | raw htext => exact single (by simp) rfl (Engine.property?_eq_none htext (by simp))
  | switch hswitch hargs => exact hword hswitch (by simp) (by simp [Engine.leaves, hswitch, hargs])
  | callback hcallback => exact hword hcallback (by simp) (by simp [Engine.leaves, hcallback])
  | component hcomponent _ _ hprops => exact hword hcomponent (by simp) (by simp [Engine.leaves, hcomponent, hprops])

/-- A word that puts entries is carried out again, and if it is for a property, it is put right. -/
theorem rewritten (hspace : e.isTarget lexem.space = true) (hcongruent : lexem.isCongruent old = true) {i : Instruction}
    (hword : e.instruction? lexem = some i) (hlive : e.config.liveProperties = true) {f : Host → Host}
    (hrewrite : e.rewrite lexem old p i = some f) : Revises e p σ old slot (σ.onHost f) lexem slot := by
  obtain ⟨hinstruction, hspaces⟩ := instruction_again (e := e) hcongruent
  obtain ⟨hlasts, hon, hdom⟩ := Lexem.lasts_of_rewrite hrewrite
  rw [hword] at hinstruction
  have hentries : ∀ {mark : Mark}, e.Suits old mark → mark = .entries := by
    intro mark hsuits
    have hsame : ∀ {j : Instruction}, e.instruction? old = some j → j = i := fun hj => by
      rw [hinstruction, Option.some.injEq] at hj
      exact hj.symm
    cases hsuits with
    | nodes hnodes =>
        have hfalse := hnodes (hspaces ▸ hspace) i hinstruction
        rw [hlasts] at hfalse
        cases hfalse
    | element htag =>
        obtain rfl := hsame htag
        cases hlasts
    | entries => rfl
    | listener _ hj => exact absurd (hsame hj).symm hon
    | hook _ hj => exact absurd (hsame hj).symm hdom
  intro cs posts hholds hnodup hcensus hgrounded hseemly word hmem k hk
  have hattribute : slot = .attribute := by
    cases hcensus with
    | component _ _ _ _ _ hsuits => cases hentries (hsuits e rfl)
    | part hslot hsuits =>
        have hmark := hentries (hsuits e rfl)
        cases slot <;> first | rfl | cases hmark
  subst hattribute
  by_cases hprop : i = .prop
  · subst hprop
    have hwords : wordsIn σ.instances p [lexem] [.attribute] = _ := wordsIn_part (by simp) (by simp [Slot.parts])
    have hown : word = (p, lexem) := by simpa [hwords, Slot.parts, wordsIn_nil] using hmem
    subst hown
    exact .inl (Engine.live_property hlive hrewrite hgrounded.parent (hseemly.proper.numbers _ hmem _ hk))
  · exact single (by simp) rfl (Engine.property?_eq_none hword (by simpa using hprop)) hholds hnodup hcensus
      hgrounded hseemly
      word hmem k hk

end Revises

end Slots

end Parlance
