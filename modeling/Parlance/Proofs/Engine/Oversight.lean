import Parlance.Proofs.Engine.Abiding

/-! The properties that words put on nodes, in an output and in the one that comes of it. Two outputs are orderly if no
word loses all of its arguments and no property is put where a later word had put it before. A diff overlooks a word if
on the way to it there is something that counts as unchanged: the word that it stands inside of, or the sentence. -/

namespace Parlance

variable {e : Engine} {t t' t₁ t₁' : Array Instance} {p : NodeId} {lexem lexem' : Lexem} {slot slot' : Slot}
variable {lexems lexems' lexems₂ lexems₂' : List Lexem} {slots slots' slots₂ slots₂' : List Slot}
variable {cs cs' : List InstanceId} {word : NodeId × Lexem}

/-- The words of slots that stand under a node, at any depth. -/
def wordsIn (t : Array Instance) (p : NodeId) (lexems : List Lexem) (slots : List Slot) : List (NodeId × Lexem) :=
  wordsOfSlots (Rendered.wordsOfComponent t t.size) p lexems slots

/-- The property that a word puts a value in, if it is for that. -/
def Engine.property? (e : Engine) (word : NodeId × Lexem) : Option (NodeId × String) :=
  if e.isTarget word.2.space = true ∧ e.instruction? word.2 = some .prop then some (word.1, (word.2.arg 0).toText)
  else none

/-- The properties that the words of slots put values in. -/
def Engine.propertiesIn (e : Engine) (t : Array Instance) (p : NodeId) (lexems : List Lexem) (slots : List Slot) :
    List (NodeId × String) := (wordsIn t p lexems slots).filterMap e.property?

/-- What one of several outputs holds is part of what they hold. -/
theorem Holds.of_output {rs : List Rendered} {r : Rendered} (h : Holds t (slotsOf rs) cs) (hr : r ∈ rs) :
    ∃ own, Holds t r.slots own ∧ ∀ id ∈ own, id ∈ cs := by
  obtain ⟨before, after, rfl⟩ := List.append_of_mem hr
  rw [slotsOf_append, slotsOf_cons] at h
  obtain ⟨a, c, rfl, -, hc⟩ := h.split
  obtain ⟨own, d, rfl, hown, -⟩ := hc.split
  exact ⟨own, hown, fun id hid => by simp [hid]⟩

section Words

theorem Rendered.words_eq (r : Rendered) : r.words t p = wordsIn t p r.sentence.lexems r.slots := wordsWith_eq r

theorem wordsIn_nil (slots : List Slot) : wordsIn t p [] slots = [] := by simp [wordsIn, wordsOfSlots]

theorem wordsIn_append (hlength : lexems.length = slots.length) (lexems₂ : List Lexem) (slots₂ : List Slot) :
    wordsIn t p (lexems ++ lexems₂) (slots ++ slots₂) = wordsIn t p lexems slots ++ wordsIn t p lexems₂ slots₂ :=
  wordsOfSlots_append hlength lexems₂ slots₂

/-- The words inside a slot that is no component come before its own. -/
theorem wordsIn_part (hslot : ∀ id, slot ≠ .component id) (hpaired : ∀ r ∈ slot.parts, r.Paired) :
    wordsIn t p [lexem] [slot] =
      wordsIn t (slot.inside p) (lexemsOf slot.parts) (slotsOf slot.parts) ++ [(p, lexem)] := by
  rw [wordsIn, wordsOfSlots, Slot.wordsWith_part hslot hpaired]
  simp [wordsIn, wordsOfSlots]

theorem wordsOfSlots_congr (hholds : Holds t slots cs) (hagree : ∀ id ∈ cs, Agree t t' id) :
    ∀ {p : NodeId} {lexems : List Lexem} {depth depth' : Nat}, (∀ id ∈ cs, t.size ≤ depth + id.index) →
      (∀ id ∈ cs, t'.size ≤ depth' + id.index) →
      wordsOfSlots (Rendered.wordsOfComponent t' depth') p lexems slots =
        wordsOfSlots (Rendered.wordsOfComponent t depth) p lexems slots := by
  have hcomponent : ∀ {t : Array Instance} {depth : Nat} {p : NodeId} {id : InstanceId},
      (Slot.component id).wordsWith (Rendered.wordsOfComponent t depth) p = Rendered.wordsOfComponent t depth id := by
    simp [Slot.wordsWith]
  induction hholds with
  | nil =>
      intro p lexems depth depth' _ _
      cases lexems <;> simp [wordsOfSlots]
  | @part slot slots inner outer hslot hpaired _ _ ihinner ihouter =>
      intro p lexems depth depth' hdepth hdepth'
      cases lexems with
      | nil => simp [wordsOfSlots]
      | cons lexem lexems =>
      rw [wordsOfSlots, wordsOfSlots, Slot.wordsWith_part hslot hpaired, Slot.wordsWith_part hslot hpaired,
        ihinner (fun id hid => hagree id (by simp [hid])) (fun id hid => hdepth id (by simp [hid]))
          fun id hid => hdepth' id (by simp [hid]),
        ihouter (fun id hid => hagree id (by simp [hid])) (fun id hid => hdepth id (by simp [hid]))
          fun id hid => hdepth' id (by simp [hid])]
  | @component id i r slots inner outer hpresent hdeveloped _ hlater _ _ ihinner ihouter =>
      intro p lexems depth depth' hdepth hdepth'
      cases lexems with
      | nil => simp [wordsOfSlots]
      | cons lexem lexems =>
      obtain ⟨i', hpresent', hcore⟩ := (hagree id (by simp)).some hpresent
      have hlt := (Array.getElem?_eq_some_iff.mp hpresent).1
      have hlt' := (Array.getElem?_eq_some_iff.mp hpresent').1
      have hown := hdepth id (by simp)
      have hown' := hdepth' id (by simp)
      obtain ⟨depth, rfl⟩ : ∃ d, depth = d + 1 := ⟨depth - 1, by omega⟩
      obtain ⟨depth', rfl⟩ : ∃ d, depth' = d + 1 := ⟨depth' - 1, by omega⟩
      have hless : ∀ child ∈ inner, t.size ≤ depth + child.index ∧ t'.size ≤ depth' + child.index := fun child hchild => by
        have := hlater child hchild
        omega
      have hin : wordsOfSlots (Rendered.wordsOfComponent t' depth') i.parent r.sentence.lexems r.slots =
          wordsOfSlots (Rendered.wordsOfComponent t depth) i.parent r.sentence.lexems r.slots :=
        ihinner (fun id hid => hagree id (by simp [hid])) (fun child hchild => (hless child hchild).1)
          fun child hchild => (hless child hchild).2
      rw [wordsOfSlots, wordsOfSlots, hcomponent, hcomponent, Rendered.wordsOfComponent, Rendered.wordsOfComponent,
        hpresent, hpresent', ihouter (fun id hid => hagree id (by simp [hid])) (fun id hid => hdepth id (by simp [hid]))
          fun id hid => hdepth' id (by simp [hid])]
      simp only [Instance.developed_of_core hcore, hdeveloped, wordsOfOption, wordsWith_eq, Placed.parent_of_core hcore,
        hin]

/-- The words of slots are the same in all tables that agree about what they hold. -/
theorem wordsIn_congr (hholds : Holds t slots cs) (hagree : ∀ id ∈ cs, Agree t t' id) :
    wordsIn t' p lexems slots = wordsIn t p lexems slots :=
  wordsOfSlots_congr hholds hagree (fun _ _ => Nat.le_add_right _ _) fun _ _ => Nat.le_add_right _ _

theorem propertiesIn_congr (hholds : Holds t slots cs) (hagree : ∀ id ∈ cs, Agree t t' id) :
    e.propertiesIn t' p lexems slots = e.propertiesIn t p lexems slots := by
  rw [Engine.propertiesIn, wordsIn_congr hholds hagree, Engine.propertiesIn]

theorem propertiesIn_append (hlength : lexems.length = slots.length) (lexems₂ : List Lexem) (slots₂ : List Slot) :
    e.propertiesIn t p (lexems ++ lexems₂) (slots ++ slots₂) =
      e.propertiesIn t p lexems slots ++ e.propertiesIn t p lexems₂ slots₂ := by
  rw [Engine.propertiesIn, wordsIn_append hlength, List.filterMap_append, Engine.propertiesIn, Engine.propertiesIn]

/-- The words of a component are those of its output, and its own. -/
theorem wordsIn_component {id : InstanceId} {i : Instance} {r : Rendered} (hholds : Holds t [.component id] cs)
    (hpresent : t[id.index]? = some i) (hdeveloped : i.developed = some r) (hparent : i.parent = p) :
    wordsIn t p [lexem] [.component id] = wordsIn t p r.sentence.lexems r.slots ++ [(p, lexem)] := by
  obtain ⟨i', r', inner, -, hpresent', hdeveloped', -, hlater, hinner⟩ := hholds.of_component
  rw [hpresent] at hpresent'
  cases hpresent'
  rw [hdeveloped] at hdeveloped'
  cases hdeveloped'
  have hlt := (Array.getElem?_eq_some_iff.mp hpresent).1
  obtain ⟨size, hsize⟩ : ∃ s, t.size = s + 1 := ⟨t.size - 1, by omega⟩
  have hslot : (Slot.component id).wordsWith (Rendered.wordsOfComponent t t.size) p =
      wordsOfSlots (Rendered.wordsOfComponent t size) p r.sentence.lexems r.slots := by
    rw [hsize]
    simp only [Slot.wordsWith, Rendered.wordsOfComponent, hpresent, hdeveloped, wordsOfOption, hparent, wordsWith_eq]
  have hdepth : wordsOfSlots (Rendered.wordsOfComponent t size) p r.sentence.lexems r.slots =
      wordsIn t p r.sentence.lexems r.slots :=
    wordsOfSlots_congr hinner (fun _ _ => rfl) (fun _ _ => Nat.le_add_right _ _) fun child hchild => by
      have := hlater child hchild
      omega
  rw [wordsIn, wordsOfSlots, hslot, hdepth]
  simp [wordsOfSlots]

end Words

variable (e t t')

/-- Lexems and slots, and those that come in their place: no word loses all of its arguments, and no word puts a
property where a later one had put it before. -/
inductive Orderly : NodeId → List Lexem → List Slot → List Lexem → List Slot → Prop
  | gone {p : NodeId} {lexems : List Lexem} {slots : List Slot} : Orderly p lexems slots [] []
  | fresh {p : NodeId} {lexems : List Lexem} {slots : List Slot} : Orderly p [] [] lexems slots
  | cons {p : NodeId} {lexem lexem' : Lexem} {slot slot' : Slot} {lexems lexems' : List Lexem} {slots slots' : List Slot}
      (hargs : lexem'.args = [] → lexem.args = [])
      (hclear : (e.propertiesIn t' p [lexem'] [slot']).Disjoint (e.propertiesIn t p lexems slots))
      (hparts : e.renews lexem' lexem = false →
        Orderly (slot.inside p) (lexemsOf slot.parts) (slotsOf slot.parts) (lexemsOf slot'.parts) (slotsOf slot'.parts))
      (hcomponent : ∀ id i r i' r', slot = .component id → slot' = .component id → t[id.index]? = some i →
        i.developed = some r → t'[id.index]? = some i' → i'.developed = some r' →
        Orderly p r.sentence.lexems r.slots r'.sentence.lexems r'.slots)
      (houter : Orderly p lexems slots lexems' slots') :
      Orderly p (lexem :: lexems) (slot :: slots) (lexem' :: lexems') (slot' :: slots')

/-- Whether a diff leaves what is inside a slot as it is, as the word counts as unchanged. -/
def Engine.leaves (lexem old : Lexem) : Bool :=
  !e.isTarget lexem.space || lexem.args.isEmpty ||
    match e.instruction? lexem with
    | none => !lexem.argsChanged old
    | some .switchUse => !lexem.packedChanged old
    | some .component => (lexem.arg 1).same (old.arg 1)
    | some .execute => true
    | some .ref => true
    | some _ => false

/-- Whether a diff that goes into a slot keeps one of the outputs inside, as its sentence is the very one that it was or
is the same child of a tag. -/
def Engine.Skips (lexem old : Lexem) (index : Nat) (kept : Rendered) : Prop :=
  e.config.reuseIdentical = true ∧ kept.identity.isSome = true ∨
    e.instruction? lexem = some .tag ∧
      ∃ child ∈ (withFormer lexem.children old.children)[index]?, child.2.any (·.same child.1) = true

/-- A diff overlooks a word of the new output. -/
inductive Overlooks (word : NodeId × Lexem) : NodeId → List Lexem → List Slot → List Lexem → List Slot → Prop
  | kept {p : NodeId} {lexem lexem' : Lexem} {slot : Slot} {lexems lexems' : List Lexem} {slots slots' : List Slot}
      (hplace : ((lexem, slot), (lexem', slot)) ∈ (lexems.zip slots).zip (lexems'.zip slots'))
      (hleaves : e.leaves lexem' lexem = true) (hword : word ∈ wordsIn t' p [lexem'] [slot]) :
      Overlooks word p lexems slots lexems' slots'
  | same {p : NodeId} {lexem lexem' : Lexem} {slot slot' : Slot} {lexems lexems' : List Lexem} {slots slots' : List Slot}
      {index : Nat} {r : Rendered}
      (hplace : ((lexem, slot), (lexem', slot')) ∈ (lexems.zip slots).zip (lexems'.zip slots'))
      (hrenews : e.renews lexem' lexem = false)
      (hold : slot.parts[index]? = some r) (hnew : slot'.parts[index]? = some r) (hskips : e.Skips lexem' lexem index r)
      (hword : word ∈ r.words t' (slot'.inside p)) : Overlooks word p lexems slots lexems' slots'
  | part {p : NodeId} {lexem lexem' : Lexem} {slot slot' : Slot} {lexems lexems' : List Lexem} {slots slots' : List Slot}
      (hplace : ((lexem, slot), (lexem', slot')) ∈ (lexems.zip slots).zip (lexems'.zip slots'))
      (hrenews : e.renews lexem' lexem = false)
      (hinner : Overlooks word (slot'.inside p) (lexemsOf slot.parts) (slotsOf slot.parts) (lexemsOf slot'.parts)
        (slotsOf slot'.parts)) : Overlooks word p lexems slots lexems' slots'
  | component {p : NodeId} {lexem lexem' : Lexem} {id : InstanceId} {i i' : Instance} {r r' : Rendered}
      {lexems lexems' : List Lexem} {slots slots' : List Slot}
      (hplace : ((lexem, .component id), (lexem', .component id)) ∈ (lexems.zip slots).zip (lexems'.zip slots'))
      (hpresent : t[id.index]? = some i) (hdeveloped : i.developed = some r)
      (hpresent' : t'[id.index]? = some i') (hdeveloped' : i'.developed = some r')
      (hinner : Overlooks word p r.sentence.lexems r.slots r'.sentence.lexems r'.slots) :
      Overlooks word p lexems slots lexems' slots'

variable {e t t'}

namespace Orderly

/-- Where an output is orderly, no word loses all of its arguments. -/
theorem follows (h : Orderly e t t' p lexems slots lexems' slots') :
    (Regime.lasting e).Follows t lexems slots t' lexems' slots' := by
  rintro _ ⟨⟩
  induction h with
  | gone => exact .gone
  | fresh => exact .fresh
  | cons hargs _ _ _ _ ihparts ihcomponent ihouter => exact .cons hargs ihparts ihcomponent ihouter

theorem congr (h : Orderly e t t' p lexems slots lexems' slots') (hholds : Holds t slots cs)
    (hholds' : Holds t' slots' cs') (hagree : ∀ id ∈ cs, Agree t t₁ id) (hagree' : ∀ id ∈ cs', Agree t' t₁' id) :
    Orderly e t₁ t₁' p lexems slots lexems' slots' := by
  induction h generalizing cs cs' with
  | gone => exact .gone
  | fresh => exact .fresh
  | @cons p lexem lexem' slot slot' lexems lexems' slots slots' hargs hclear _ _ _ ihparts ihcomponent ihouter =>
      obtain ⟨inner, hinner, hsub⟩ := hholds.parts
      obtain ⟨inner', hinner', hsub'⟩ := hholds'.parts
      obtain ⟨outer, houter, hrest⟩ := hholds.tail
      obtain ⟨outer', houter', hrest'⟩ := hholds'.tail
      obtain ⟨own, hown, hfirst⟩ := hholds'.of_mem (List.mem_cons_self (a := slot'))
      refine .cons hargs ?_ (fun hgo => ?_) ?_ ?_
      · rwa [propertiesIn_congr hown fun id hid => hagree' id (hfirst id hid),
          propertiesIn_congr houter fun id hid => hagree id (hrest id hid)]
      · exact ihparts hgo hinner hinner' (fun id hid => hagree id (hsub id hid)) fun id hid => hagree' id (hsub' id hid)
      · rintro id i r i' r' rfl rfl hpresent hdeveloped hpresent' hdeveloped'
        obtain ⟨hid, houtput⟩ := hholds.output
        obtain ⟨hid', houtput'⟩ := hholds'.output
        obtain ⟨j, hj, hjr⟩ := developed_of_agree (hagree id hid) hpresent hdeveloped
        obtain ⟨j', hj', hjr'⟩ := developed_of_agree (hagree' id hid') hpresent' hdeveloped'
        obtain ⟨own, hown, hmem⟩ := houtput j r hj hjr
        obtain ⟨own', hown', hmem'⟩ := houtput' j' r' hj' hjr'
        exact ihcomponent id j r j' r' rfl rfl hj hjr hj' hjr' hown hown'
          (fun child hchild => hagree child (hmem child hchild)) fun child hchild => hagree' child (hmem' child hchild)
      · exact ihouter houter houter' (fun id hid => hagree id (hrest id hid)) fun id hid => hagree' id (hrest' id hid)

/-- Orderly outputs are orderly in every part, and the new words of a part put nothing where later ones had put
something. -/
theorem split (hlength : lexems.length = lexems'.length) (hslots : lexems.length = slots.length)
    (hslots' : lexems'.length = slots'.length)
    (h : Orderly e t t' p (lexems ++ lexems₂) (slots ++ slots₂) (lexems' ++ lexems₂') (slots' ++ slots₂')) :
    Orderly e t t' p lexems slots lexems' slots' ∧ Orderly e t t' p lexems₂ slots₂ lexems₂' slots₂' ∧
      (e.propertiesIn t' p lexems' slots').Disjoint (e.propertiesIn t p lexems₂ slots₂) := by
  induction lexems generalizing lexems' slots slots' with
  | nil =>
      obtain rfl := List.length_eq_zero_iff.mp hlength.symm
      obtain rfl := List.length_eq_zero_iff.mp hslots.symm
      obtain rfl := List.length_eq_zero_iff.mp hslots'.symm
      exact ⟨.gone, h, by simp [Engine.propertiesIn, wordsIn_nil]⟩
  | cons lexem lexems ih =>
      obtain ⟨lexem', lexems', rfl⟩ := List.exists_cons_of_length_eq_add_one hlength.symm
      obtain ⟨slot, slots, rfl⟩ := List.exists_cons_of_length_eq_add_one hslots.symm
      obtain ⟨slot', slots', rfl⟩ := List.exists_cons_of_length_eq_add_one hslots'.symm
      simp only [List.length_cons, Nat.add_right_cancel_iff] at hlength hslots hslots'
      cases h with
      | cons hargs hclear hparts hcomponent houter =>
      obtain ⟨hfirst, hsecond, hrest⟩ := ih hlength hslots hslots' houter
      simp only [List.append_eq, propertiesIn_append hslots, List.disjoint_append_right] at hclear
      refine ⟨.cons hargs hclear.1 hparts hcomponent hfirst, hsecond, ?_⟩
      rw [← List.singleton_append, ← List.singleton_append (x := slot'), propertiesIn_append rfl,
        List.disjoint_append_left]
      exact ⟨hclear.2, hrest⟩

end Orderly

namespace Overlooks

theorem congr (h : Overlooks e t t' word p lexems slots lexems' slots') (hholds : Holds t slots cs)
    (hholds' : Holds t' slots' cs') (hagree : ∀ id ∈ cs, Agree t t₁ id) (hagree' : ∀ id ∈ cs', Agree t' t₁' id) :
    Overlooks e t₁ t₁' word p lexems slots lexems' slots' := by
  have hpair : ∀ {lexems lexems' : List Lexem} {slots slots' : List Slot} {lexem lexem' : Lexem} {slot slot' : Slot},
      ((lexem, slot), (lexem', slot')) ∈ (lexems.zip slots).zip (lexems'.zip slots') → slot ∈ slots ∧ slot' ∈ slots' :=
    fun hplace => ⟨(List.of_mem_zip (List.of_mem_zip hplace).1).2, (List.of_mem_zip (List.of_mem_zip hplace).2).2⟩
  induction h generalizing cs cs' with
  | kept hplace hleaves hword =>
      obtain ⟨own, hown, hsub⟩ := hholds'.of_mem (hpair hplace).2
      exact .kept hplace hleaves (by rwa [wordsIn_congr hown fun id hid => hagree' id (hsub id hid)])
  | same hplace hrenews hold hnew hskips hword =>
      obtain ⟨own, hown, hsub⟩ := hholds'.of_mem (hpair hplace).2
      obtain ⟨inner, hinner, hinside⟩ := hown.parts
      refine .same hplace hrenews hold hnew hskips ?_
      obtain ⟨ids, hids, hrest⟩ := hinner.of_output (List.mem_of_getElem? hnew)
      rw [Rendered.words_eq] at hword ⊢
      rwa [wordsIn_congr hids fun id hid => hagree' id (hsub id (hinside id (hrest id hid)))]
  | part hplace hrenews _ ih =>
      obtain ⟨own, hown, hsub⟩ := hholds.of_mem (hpair hplace).1
      obtain ⟨own', hown', hsub'⟩ := hholds'.of_mem (hpair hplace).2
      obtain ⟨inner, hinner, hinside⟩ := hown.parts
      obtain ⟨inner', hinner', hinside'⟩ := hown'.parts
      exact .part hplace hrenews (ih hinner hinner' (fun id hid => hagree id (hsub id (hinside id hid)))
        fun id hid => hagree' id (hsub' id (hinside' id hid)))
  | component hplace hpresent hdeveloped hpresent' hdeveloped' _ ih =>
      obtain ⟨own, hown, hsub⟩ := hholds.of_mem (hpair hplace).1
      obtain ⟨own', hown', hsub'⟩ := hholds'.of_mem (hpair hplace).2
      obtain ⟨hid, houtput⟩ := hown.output
      obtain ⟨hid', houtput'⟩ := hown'.output
      obtain ⟨inner, hinner, hinside⟩ := houtput _ _ hpresent hdeveloped
      obtain ⟨inner', hinner', hinside'⟩ := houtput' _ _ hpresent' hdeveloped'
      obtain ⟨j, hj, hcore⟩ := (hagree _ (hsub _ hid)).some hpresent
      obtain ⟨j', hj', hcore'⟩ := (hagree' _ (hsub' _ hid')).some hpresent'
      exact .component hplace hj ((Instance.developed_of_core hcore).trans hdeveloped) hj'
        ((Instance.developed_of_core hcore').trans hdeveloped')
        (ih hinner hinner' (fun id hid => hagree id (hsub id (hinside id hid)))
          fun id hid => hagree' id (hsub' id (hinside' id hid)))

/-- A word that is overlooked in one part is overlooked in the whole. -/
theorem of_places {olds news : List Lexem} {slots₀ slots₀' : List Slot}
    (hplaces : (lexems.zip slots).zip (lexems'.zip slots') ⊆ (olds.zip slots₀).zip (news.zip slots₀'))
    (h : Overlooks e t t' word p lexems slots lexems' slots') : Overlooks e t t' word p olds slots₀ news slots₀' := by
  cases h with
  | kept hplace hleaves hword => exact .kept (hplaces hplace) hleaves hword
  | same hplace hrenews hold hnew hskips hword =>
      exact .same (hplaces hplace) hrenews hold hnew hskips hword
  | part hplace hrenews hinner => exact .part (hplaces hplace) hrenews hinner
  | component hplace hpresent hdeveloped hpresent' hdeveloped' hinner =>
      exact .component (hplaces hplace) hpresent hdeveloped hpresent' hdeveloped' hinner

end Overlooks

end Parlance
