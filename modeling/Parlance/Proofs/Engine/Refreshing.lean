import Parlance.Proofs.Engine.Oversight
import Parlance.Proofs.Engine.Silence

/-! How a turn refreshes properties. After it, each property of the new words has the value of its word, or the word is
one that was there before, the diff has overlooked it, and its property is what it was. Such turns compose side by side:
what the first one has put is left alone by the second, if the outputs are orderly and no property is put twice. -/

namespace Parlance

open Pass

variable {ω : Type} {b : Behaviour ω} {e : Engine} {p : NodeId} {σ σ₁ σ' : Stage ω}
variable {olds olds₂ lexems lexems₂ : List Lexem} {slots slots₂ slots' slots₂' : List Slot}
variable {t t' t₁ t₁' : Array Instance} {cs cs' : List InstanceId} {posts : List Post} {k : NodeId × String}

/-- Hooks leave properties alone. -/
def Behaviour.LeavesProperties (b : Behaviour ω) : Prop := ∀ n name, b.Leaves n (.property name)

/-- A host shows the value of a word as a property of its node. -/
def Host.Shows (h : Host) (word : NodeId × Lexem) : Prop :=
  ∃ name value, word.2.stringArg 0 = .ok name ∧ word.2.scalarArg 1 = .ok value ∧
    (h.property? word.1 name).any value.equals = true

/-- No property is put by two words of slots, and no value is NaN. -/
structure Proper (e : Engine) (t : Array Instance) (p : NodeId) (lexems : List Lexem) (slots : List Slot) : Prop where
  distinct : (e.propertiesIn t p lexems slots).Nodup
  numbers : ∀ word ∈ wordsIn t p lexems slots, ∀ k, e.property? word = some k →
    ∀ value, word.2.scalarArg 1 = .ok value → value.equals value = true

/-- Slots and those that come in their place are in order: no word loses all of its arguments, and no property is put by
two words of one output nor where a later word had put it before. -/
structure Seemly (e : Engine) (t t' : Array Instance) (p : NodeId) (olds : List Lexem) (slots : List Slot)
    (lexems : List Lexem) (slots' : List Slot) : Prop where
  orderly : Orderly e t t' p olds slots lexems slots'
  former : (e.propertiesIn t p olds slots).Nodup
  proper : Proper e t' p lexems slots'

/-- A turn is made of moves, whatever is known of its run. -/
def Evolving (b : Behaviour ω) (e : Engine) (p : NodeId) (σ : Stage ω) (olds : List Lexem) (slots : List Slot)
    (σ' : Stage ω) (lexems : List Lexem) (slots' : List Slot) : Prop :=
  ∀ ρ : Regime, ρ.Admits e → ∃ goal, Evolves ρ b p goal σ olds slots σ' lexems slots'

/-- The properties of all new words have their values, except for words that were there before and are overlooked, and
for these they are as before. -/
def Refreshed (e : Engine) (p : NodeId) (σ : Stage ω) (olds : List Lexem) (slots : List Slot) (σ' : Stage ω)
    (lexems : List Lexem) (slots' : List Slot) (overlooked : NodeId × Lexem → Prop) : Prop :=
  ∀ word ∈ wordsIn σ'.instances p lexems slots', ∀ k, e.property? word = some k → σ'.host.Shows word ∨
    overlooked word ∧ word ∈ wordsIn σ.instances p olds slots ∧ σ'.host.property? k.1 k.2 = σ.host.property? k.1 k.2

/-- A turn that refreshes the properties of outputs that are in order. -/
def Refreshes (e : Engine) (p : NodeId) (σ : Stage ω) (olds : List Lexem) (slots : List Slot) (σ' : Stage ω)
    (lexems : List Lexem) (slots' : List Slot) (overlooked : NodeId × Lexem → Prop) : Prop :=
  ∀ ⦃cs posts⦄, Holds σ.instances slots cs → cs.Nodup → Census (.lasting e) σ.instances p olds slots posts →
    Grounded σ.host p posts → Seemly e σ.instances σ'.instances p olds slots lexems slots' →
    Refreshed e p σ olds slots σ' lexems slots' overlooked

section Words

variable {word : NodeId × Lexem}

theorem Engine.property?_eq_some : e.property? word = some k ↔ e.isTarget word.2.space = true ∧
    e.instruction? word.2 = some .prop ∧ k = (word.1, (word.2.arg 0).toText) := by
  unfold Engine.property?
  split
  · next h => simp [h, eq_comm]
  · next h => simpa using fun h₁ h₂ => absurd ⟨h₁, h₂⟩ h

/-- Only a word for a property has one. -/
theorem Engine.property?_eq_none {i : Option Instruction} {lexem : Lexem} (hword : e.instruction? lexem = i)
    (hother : i ≠ some .prop) : e.property? (p, lexem) = none :=
  if_neg fun h => hother (hword ▸ h.2)

theorem mem_propertiesIn : k ∈ e.propertiesIn t p lexems slots ↔
    ∃ word ∈ wordsIn t p lexems slots, e.property? word = some k := List.mem_filterMap

/-- A word puts a property only if it is the word for it. -/
theorem Engine.Puts.property {n : NodeId} {name : String} (h : e.Puts word n (.property name))
    (hspace : e.isTarget word.2.space = true) : e.property? word = some (n, name) := by
  obtain ⟨rfl, i, hword, hplace⟩ := h
  rw [Engine.property?_eq_some]
  cases i with
  | prop =>
      obtain rfl : name = (word.2.arg 0).toText := by simpa [Lexem.spots] using hplace
      exact ⟨hspace, hword, rfl⟩
  | cssClass | classes => simp [Lexem.spots] at hplace
  | _ => simp [Lexem.spots] at hplace

/-- A property that is shown is one of a node of the host. -/
theorem Host.Shows.made {h : Host} (hshows : h.Shows word) : word.1.index < h.count := by
  obtain ⟨name, value, -, -, hany⟩ := hshows
  by_contra hlt
  have hdefault : h.node word.1 = default := by
    rw [Host.node, Array.getD_eq_getD_getElem?, Array.getElem?_eq_none (Nat.le_of_not_lt hlt)]
    rfl
  rw [Host.property?, Host.content, hdefault] at hany
  cases hany

/-- What is shown is shown as long as the property is the same. -/
theorem Host.Shows.congr {h h' : Host} (hshows : h.Shows word)
    (hsame : ∀ name, word.2.stringArg 0 = .ok name → h'.property? word.1 name = h.property? word.1 name) :
    h'.Shows word := by
  obtain ⟨name, value, hname, hvalue, hany⟩ := hshows
  exact ⟨name, value, hname, hvalue, by rwa [hsame name hname]⟩

/-- The words of slots are those of their posts. -/
theorem Census.wordsIn_eq (h : Census (.lasting e) t p lexems slots posts) (hholds : Holds t slots cs) :
    wordsIn t p lexems slots = posts.map Post.word := wordsOfSlots_census hholds h fun _ _ => Nat.le_add_right _ _

/-- No post of a property that no word puts claims it. -/
theorem Census.unclaimed (h : Census (.lasting e) t p lexems slots posts) (hholds : Holds t slots cs)
    (hk : k ∉ e.propertiesIn t p lexems slots) :
    ∀ post ∈ posts, e.isTarget post.lexem.space = true → ¬ e.Puts post.word k.1 (.property k.2) := by
  intro post hpost hspace hputs
  have hwords := h.wordsIn_eq hholds
  exact hk (mem_propertiesIn.mpr ⟨post.word, hwords ▸ List.mem_map_of_mem hpost, hputs.property hspace⟩)

/-- The words of grounded posts are on nodes of the host. -/
theorem Census.made {h : Host} (hcensus : Census (.lasting e) t p lexems slots posts) (hholds : Holds t slots cs)
    (hgrounded : Grounded h p posts) (hword : word ∈ wordsIn t p lexems slots) : word.1.index < h.count := by
  rw [hcensus.wordsIn_eq hholds, List.mem_map] at hword
  obtain ⟨post, hpost, rfl⟩ := hword
  rcases hcensus.node_mem post hpost with heq | hmem
  · rw [Post.word, heq]
    exact hgrounded.parent
  · exact hgrounded.elements _ hmem

end Words

namespace Evolving

theorem admits (e : Engine) : (Regime.lasting e).Admits e := fun _ => Option.some.inj

/-- A property that no word puts, neither before nor after, stays as it is. -/
theorem property (h : Evolving b e p σ olds slots σ' lexems slots') (hhooks : b.LeavesProperties)
    (hholds : Holds σ.instances slots cs) (hnodup : cs.Nodup) (hcensus : Census (.lasting e) σ.instances p olds slots posts)
    (hgrounded : Grounded σ.host p posts) (horderly : Orderly e σ.instances σ'.instances p olds slots lexems slots')
    (hold : k ∉ e.propertiesIn σ.instances p olds slots) (hnew : k ∉ e.propertiesIn σ'.instances p lexems slots')
    (hk : k.1.index < σ.host.count) : σ'.host.property? k.1 k.2 = σ.host.property? k.1 k.2 := by
  obtain ⟨goal, hevolves⟩ := h (.sparing e k.1 (.property k.2)) fun _ => Option.some.inj
  obtain ⟨cs', hholds', -⟩ := hevolves.turn cs hholds (mounted_blind hnodup)
  refine hevolves.abides (hhooks k.1 k.2) hholds hnodup hcensus horderly.follows hgrounded hk (fun post hpost hmark => ?_)
    fun posts' hposts' => hposts'.unclaimed hholds' hnew
  refine hcensus.unclaimed hholds hold post hpost ?_
  have hsuits := hcensus.suits post hpost e rfl
  rw [hmark] at hsuits
  cases hsuits with
  | entries hspace => exact hspace

/-- No node is lost in a turn. -/
theorem count_le (h : Evolving b e p σ olds slots σ' lexems slots') (hhooks : b.LeavesProperties)
    (hholds : Holds σ.instances slots cs) (hnodup : cs.Nodup) (hcensus : Census (.lasting e) σ.instances p olds slots posts)
    (hgrounded : Grounded σ.host p posts) (horderly : Orderly e σ.instances σ'.instances p olds slots lexems slots') :
    σ.host.count ≤ σ'.host.count := by
  obtain ⟨goal, hevolves⟩ := h (.lasting e) (admits e)
  obtain ⟨posts', -, hmoves, -⟩ := hevolves.moves hholds hnodup hcensus horderly.follows
  refine (hmoves (fun hcall => (hhooks p "" hcall).1) (fun _ _ => trivial) [⟨p, ⟨"", "", []⟩, .element p⟩] [] hgrounded
    fun hp => ?_).count_le
  simp [elementsOf, Post.element?] at hp

end Evolving

theorem Proper.congr (h : Proper e t p lexems slots) (hholds : Holds t slots cs) (hagree : ∀ id ∈ cs, Agree t t₁ id) :
    Proper e t₁ p lexems slots where
  distinct := by rw [propertiesIn_congr hholds hagree]; exact h.distinct
  numbers := by rw [wordsIn_congr hholds hagree]; exact h.numbers

/-- What has come out of nothing is in order if no property is put twice. -/
theorem Seemly.fresh (hproper : Proper e t' p lexems slots') : Seemly e t t' p [] [] lexems slots' :=
  ⟨.fresh, by simp [Engine.propertiesIn, wordsIn_nil], hproper⟩

theorem Seemly.congr (h : Seemly e t t' p olds slots lexems slots') (hholds : Holds t slots cs)
    (hholds' : Holds t' slots' cs')
    (hagree : ∀ id ∈ cs, Agree t t₁ id) (hagree' : ∀ id ∈ cs', Agree t' t₁' id) :
    Seemly e t₁ t₁' p olds slots lexems slots' where
  orderly := h.orderly.congr hholds hholds' hagree hagree'
  former := by rw [propertiesIn_congr hholds hagree]; exact h.former
  proper := h.proper.congr hholds' hagree'

/-- Lists of lexems that stand side by side, where each new lexem has come in the place of one, or all are new. -/
def Beside (olds olds₂ : List Lexem) (slots slots₂ : List Slot) (lexems : List Lexem) : Prop :=
  olds.length = lexems.length ∨ olds ++ olds₂ = [] ∧ slots ++ slots₂ = []

namespace Beside

theorem places (h : Beside olds olds₂ slots slots₂ lexems) (hlength : olds.length = slots.length)
    (hlength' : lexems.length = slots'.length) (lexems₂ : List Lexem) (slots₂' : List Slot) :
    (olds.zip slots).zip (lexems.zip slots') ++ (olds₂.zip slots₂).zip (lexems₂.zip slots₂') =
      ((olds ++ olds₂).zip (slots ++ slots₂)).zip ((lexems ++ lexems₂).zip (slots' ++ slots₂')) := by
  rcases h with hmatched | ⟨hnone, hempty⟩
  · rw [List.zip_append hlength, List.zip_append hlength', List.zip_append]
    simp [List.length_zip, ← hlength, ← hlength', hmatched]
  · obtain ⟨rfl, rfl⟩ := List.append_eq_nil_iff.mp hnone
    simp

theorem orderly (h : Beside olds olds₂ slots slots₂ lexems) (hlength : olds.length = slots.length)
    (hlength' : lexems.length = slots'.length)
    (horderly : Orderly e t t' p (olds ++ olds₂) (slots ++ slots₂) (lexems ++ lexems₂) (slots' ++ slots₂')) :
    Orderly e t t' p olds slots lexems slots' ∧ Orderly e t t' p olds₂ slots₂ lexems₂ slots₂' ∧
      (e.propertiesIn t' p lexems slots').Disjoint (e.propertiesIn t p olds₂ slots₂) := by
  rcases h with hmatched | ⟨hnone, hempty⟩
  · exact horderly.split hmatched hlength hlength'
  · obtain ⟨rfl, rfl⟩ := List.append_eq_nil_iff.mp hnone
    obtain ⟨rfl, rfl⟩ := List.append_eq_nil_iff.mp hempty
    exact ⟨.fresh, .fresh, by simp [Engine.propertiesIn, wordsIn_nil]⟩

end Beside

namespace Refreshes

variable {first second overlooked overlooked' : NodeId × Lexem → Prop}

theorem mono (h : Refreshes e p σ olds slots σ' lexems slots' overlooked)
    (hmono : ∀ word, overlooked word → overlooked' word) : Refreshes e p σ olds slots σ' lexems slots' overlooked' :=
  fun _ _ hholds hnodup hcensus hgrounded hseemly word hword k hk =>
    (h hholds hnodup hcensus hgrounded hseemly word hword k hk).imp_right (And.imp_left (hmono word))

/-- Where no new word is for a property there is nothing to refresh. -/
theorem idle (hnone : ∀ word ∈ wordsIn σ'.instances p lexems slots', e.property? word = none) :
    Refreshes e p σ olds slots σ' lexems slots' overlooked := fun _ _ _ _ _ _ _ word hword k hk => by
  rw [hnone word hword] at hk
  cases hk

/-- Turns side by side, one after the other. -/
theorem append (hhooks : b.LeavesProperties) (hlength : olds.length = slots.length)
    (hlength' : lexems.length = slots'.length)
    (hsplit : ∀ {as'}, Holds σ₁.instances slots' as' → (∀ id ∈ as', Agree σ₁.instances σ'.instances id) →
      Orderly e σ.instances σ'.instances p (olds ++ olds₂) (slots ++ slots₂) (lexems ++ lexems₂) (slots' ++ slots₂') →
        Orderly e σ.instances σ'.instances p olds slots lexems slots' ∧
          Orderly e σ.instances σ'.instances p olds₂ slots₂ lexems₂ slots₂' ∧
          (e.propertiesIn σ'.instances p lexems slots').Disjoint (e.propertiesIn σ.instances p olds₂ slots₂))
    (hfirst : Evolving b e p σ olds slots σ₁ lexems slots') (hsecond : Evolving b e p σ₁ olds₂ slots₂ σ' lexems₂ slots₂')
    (h : Refreshes e p σ olds slots σ₁ lexems slots' first)
    (h' : Refreshes e p σ₁ olds₂ slots₂ σ' lexems₂ slots₂' second)
    (hleft : ∀ {as as' word}, Holds σ.instances slots as → Holds σ₁.instances slots' as' →
      (∀ id ∈ as', Agree σ₁.instances σ'.instances id) → first word → overlooked word)
    (hright : ∀ {cs cs' word}, Holds σ₁.instances slots₂ cs → Holds σ'.instances slots₂' cs' →
      (∀ id ∈ cs, Agree σ₁.instances σ.instances id) → second word → overlooked word) :
    Refreshes e p σ (olds ++ olds₂) (slots ++ slots₂) σ' (lexems ++ lexems₂) (slots' ++ slots₂') overlooked := by
  intro ids posts hholds hnodup hcensus hgrounded hseemly word hword k hk
  obtain ⟨as, cs, rfl, ha, hc⟩ := hholds.split
  obtain ⟨left, right, rfl, hcensusLeft, hcensusRight⟩ := hcensus.split hlength
  obtain ⟨hnodupA, hnodupC, hdisjoint⟩ := List.nodup_append.mp hnodup
  obtain ⟨_, hevolves⟩ := hfirst (.lasting e) (Evolving.admits e)
  obtain ⟨_, hevolves'⟩ := hsecond (.lasting e) (Evolving.admits e)
  obtain ⟨as', ha', hexchange⟩ := hevolves.turn as ha (mounted_blind hnodupA)
  have hagree : ∀ id ∈ cs, Agree σ.instances σ₁.instances id := fun id hid =>
    hexchange.agree id (hc.index_lt id hid) fun hmem => hdisjoint id hmem id hid rfl
  have hc₁ := hc.congr hagree
  obtain ⟨cs', hc', hexchange'⟩ := hevolves'.turn cs hc₁ (mounted_blind hnodupC)
  have hagree' : ∀ id ∈ as', Agree σ₁.instances σ'.instances id := fun id hid =>
    hexchange'.agree id (ha'.index_lt id hid) fun hmem => by
      rcases hexchange.source id hid with hold | hnew
      · exact hdisjoint id hold id hmem rfl
      · exact absurd (hc.index_lt id hmem) (Nat.not_lt.mpr hnew)
  obtain ⟨horderly, horderly', hclear⟩ := hsplit ha' hagree' hseemly.orderly
  have hformer := hseemly.former
  obtain ⟨hdistinct, hnumbers⟩ := hseemly.proper
  rw [propertiesIn_append hlength, List.nodup_append, ← List.disjoint_iff_ne] at hformer
  rw [propertiesIn_append hlength', List.nodup_append, ← List.disjoint_iff_ne] at hdistinct
  simp only [wordsIn_append hlength', List.mem_append] at hnumbers hword
  have hseemly₁ : Seemly e σ.instances σ₁.instances p olds slots lexems slots' :=
    (Seemly.mk horderly hformer.1 ⟨hdistinct.1, fun word hword => hnumbers word (.inl hword)⟩).congr ha
      (ha'.congr hagree') (fun _ _ => rfl) fun id hid => Eq.symm (hagree' id hid)
  have hseemly₂ : Seemly e σ₁.instances σ'.instances p olds₂ slots₂ lexems₂ slots₂' :=
    (Seemly.mk horderly' hformer.2.1 ⟨hdistinct.2.1, fun word hword => hnumbers word (.inr hword)⟩).congr hc hc' hagree
      fun _ _ => rfl
  have hcount := hfirst.count_le hhooks ha hnodupA hcensusLeft hgrounded.left hseemly₁.orderly
  have hcensus₁ := hcensusRight.congr hc hagree
  have hground₁ := hgrounded.right.mono hcount
  rw [wordsIn_append hlength]
  rcases hword with hword | hword
  · -- the second turn leaves the properties of the first part alone
    rw [wordsIn_congr ha' hagree'] at hword
    have hmem : k ∈ e.propertiesIn σ'.instances p lexems slots' := by
      rw [propertiesIn_congr ha' hagree']
      exact mem_propertiesIn.mpr ⟨word, hword, hk⟩
    have hkept : k.1.index < σ₁.host.count → σ'.host.property? k.1 k.2 = σ₁.host.property? k.1 k.2 :=
      hsecond.property hhooks hc₁ hnodupC hcensus₁ hground₁ hseemly₂.orderly
        (by rw [propertiesIn_congr hc hagree]; exact hclear hmem) (hdistinct.2.2 hmem)
    obtain ⟨-, -, rfl⟩ := Engine.property?_eq_some.mp hk
    rcases h ha hnodupA hcensusLeft hgrounded.left hseemly₁ word hword _ hk with hshows | ⟨hoverlooked, hold, hsame⟩
    · refine .inl (hshows.congr fun name hname => ?_)
      have hsame := hkept hshows.made
      rwa [Lexem.stringArg_ok.mp hname] at hsame
    · have hmade := Nat.lt_of_lt_of_le (hcensusLeft.made ha hgrounded.left hold) hcount
      exact .inr ⟨hleft ha ha' hagree' hoverlooked, List.mem_append_left _ hold, (hkept hmade).trans hsame⟩
  · refine (h' hc₁ hnodupC hcensus₁ hground₁ hseemly₂ word hword k hk).imp_right ?_
    rintro ⟨hoverlooked, hold, hsame⟩
    have hmade := hcensus₁.made hc₁ hground₁ hold
    rw [wordsIn_congr hc hagree] at hold
    have hmem : k ∈ e.propertiesIn σ.instances p olds₂ slots₂ := mem_propertiesIn.mpr ⟨word, hold, hk⟩
    have hmem' : k ∈ e.propertiesIn σ'.instances p lexems₂ slots₂' := mem_propertiesIn.mpr ⟨word, hword, hk⟩
    have hearlier := hcensusRight.made hc hgrounded.right hold
    obtain ⟨-, -, rfl⟩ := Engine.property?_eq_some.mp hk
    have hkept := hfirst.property hhooks ha hnodupA hcensusLeft hgrounded.left hseemly₁.orderly
      (fun hboth => hformer.2.2 hboth hmem)
      (fun hboth => hdistinct.2.2 (propertiesIn_congr ha' hagree' ▸ hboth) hmem') hearlier
    exact ⟨hright hc₁ hc' (fun id hid => Eq.symm (hagree id hid)) hoverlooked, List.mem_append_right _ hold,
      hsame.trans hkept⟩

end Refreshes

end Parlance
