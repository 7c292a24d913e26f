import Parlance.Proofs.Engine.Words

/-! The names that outputs give to nodes. A component is asked for a node by a name, and its table of names is written
by the words of its output. What a pass does to all these tables is told beside the names that stand in the output
before and after it, each with the component that it belongs to: a name is entered anew by a word that stands there
afterwards, or its entry stays and no word for it is new. This is said of pieces that stand side by side. -/

namespace Parlance

open Pass

/-- The name that a word gives to the node that it is carried out on. -/
def Engine.name? (e : Engine) (lexem : Lexem) : Option String :=
  if e.isTarget lexem.space = true ∧ e.instruction? lexem = some .ref then (lexem.stringArg 0).toOption else none

/-- The names among words, each with its node. -/
def Engine.namesIn (e : Engine) (words : List (NodeId × Lexem)) : List (String × NodeId) :=
  words.filterMap fun w => (e.name? w.2).map (·, w.1)

/-- The names that the output of a component gives, without those in the components inside it. -/
def Instance.names (i : Instance) : List (String × NodeId) :=
  match i.developed with
  | some r => i.engine.namesIn (r.wordsWith (fun _ => []) i.parent)
  | none => []

/-- A name that a component gives to a node. -/
structure Naming where
  owner : InstanceId
  name : String
  node : NodeId

/-- The component whose output a pass writes, with the engine. -/
def Cursor.owner (c : Cursor) (e : Engine) : Option (InstanceId × Engine) := c.component.map (·, e)

/-- The naming by a word, if it stands in the output of a component. -/
def Lexem.naming (owner : Option (InstanceId × Engine)) (p : NodeId) (lexem : Lexem) : List Naming :=
  match owner with
  | some (id, e) => (e.name? lexem).toList.map (⟨id, ·, p⟩)
  | none => []

/-- All namings by slots, with those of the components inside them. -/
inductive Namings (t : Array Instance) :
    Option (InstanceId × Engine) → NodeId → List Lexem → List Slot → List Naming → Prop
  | nil {owner : Option (InstanceId × Engine)} {p : NodeId} : Namings t owner p [] [] []
  | part {owner : Option (InstanceId × Engine)} {p : NodeId} {lexem : Lexem} {slot : Slot} {lexems : List Lexem}
      {slots : List Slot} {inner outer : List Naming} (hslot : ∀ id, slot ≠ .component id)
      (hinner : Namings t owner (slot.inside p) (lexemsOf slot.parts) (slotsOf slot.parts) inner)
      (houter : Namings t owner p lexems slots outer) :
      Namings t owner p (lexem :: lexems) (slot :: slots) (inner ++ lexem.naming owner p ++ outer)
  | component {owner : Option (InstanceId × Engine)} {p : NodeId} {lexem : Lexem} {id : InstanceId} {i : Instance}
      {r : Rendered} {lexems : List Lexem} {slots : List Slot} {inner outer : List Naming}
      (hpresent : t[id.index]? = some i) (hdeveloped : i.developed = some r)
      (hinner : Namings t (some (id, i.engine)) i.parent r.sentence.lexems r.slots inner)
      (houter : Namings t owner p lexems slots outer) :
      Namings t owner p (lexem :: lexems) (.component id :: slots) (inner ++ lexem.naming owner p ++ outer)

section Words

variable {e : Engine} {lexem : Lexem} {i : Instruction} {owner : Option (InstanceId × Engine)} {p : NodeId}

theorem Engine.name?_of_instruction (hword : e.instruction? lexem = some i) (hi : i ≠ .ref) : e.name? lexem = none :=
  if_neg fun h => hi (Option.some.inj (hword.symm.trans h.2))

theorem Engine.name?_of_none (hword : e.instruction? lexem = none) : e.name? lexem = none :=
  if_neg fun h => by simp [hword] at h

theorem Engine.name?_of_foreign (hspace : e.isTarget lexem.space = false) : e.name? lexem = none :=
  if_neg fun h => by simp [hspace] at h

theorem Engine.name?_of_bare (hargs : lexem.args = []) : e.name? lexem = none := by
  unfold Engine.name?
  split
  · rw [Lexem.stringArg, Lexem.arg, hargs]
    rfl
  · rfl

/-- A word without a name names nothing for whomever. -/
theorem Lexem.naming_of_none (h : ∀ o ∈ owner, o.2.name? lexem = none) : lexem.naming owner p = [] := by
  cases owner with
  | none => rfl
  | some o => rw [Lexem.naming, h o rfl, Option.toList_none, List.map_nil]

theorem Lexem.mem_naming {o : InstanceId × Engine} {name : String} {node : NodeId} :
    (⟨o.1, name, node⟩ : Naming) ∈ lexem.naming (some o) p ↔ (name, node) ∈ o.2.namesIn [(p, lexem)] := by
  simp only [Lexem.naming, Engine.namesIn, List.filterMap_cons, List.filterMap_nil]
  cases o.2.name? lexem <;> simp [eq_comm]

theorem Lexem.owner_of_naming {naming : Naming} (h : naming ∈ lexem.naming owner p) :
    ∃ o ∈ owner, naming.owner = o.1 := by
  cases owner with
  | none => simp [Lexem.naming] at h
  | some o =>
      obtain ⟨name, -, rfl⟩ := List.mem_map.mp h
      exact ⟨o, rfl, rfl⟩

@[simp] theorem Engine.namesIn_append (words words' : List (NodeId × Lexem)) :
    e.namesIn (words ++ words') = e.namesIn words ++ e.namesIn words' := List.filterMap_append

end Words

/-- Whatever is held has an output. -/
theorem Holds.not_vacant {t : Array Instance} {slots : List Slot} {cs : List InstanceId} (h : Holds t slots cs) :
    ∀ id ∈ cs, ¬ Vacant t id := by
  induction h with
  | nil => simp
  | part _ _ _ _ ihinner ihouter => exact fun id hid => (List.mem_append.mp hid).elim (ihinner id) (ihouter id)
  | component hpresent hdeveloped _ _ _ _ ihinner ihouter =>
      intro id hid hvacant
      rcases List.mem_append.mp hid with hid | hid
      · exact ihinner id hid hvacant
      rcases List.mem_cons.mp hid with rfl | hid
      · rw [hvacant _ hpresent] at hdeveloped
        cases hdeveloped
      · exact ihouter id hid hvacant

namespace Namings

variable {t t' : Array Instance} {owner : Option (InstanceId × Engine)} {p : NodeId} {lexems lexems' : List Lexem}
variable {slots slots' : List Slot} {W W' : List Naming} {cs : List InstanceId}

theorem append (h : Namings t owner p lexems slots W) (h' : Namings t owner p lexems' slots' W') :
    Namings t owner p (lexems ++ lexems') (slots ++ slots') (W ++ W') := by
  induction h with
  | nil => exact h'
  | part hslot hinner _ _ ih =>
      rw [List.append_assoc]
      exact .part hslot hinner (ih h')
  | component hpresent hdeveloped hinner _ _ ih =>
      rw [List.append_assoc]
      exact .component hpresent hdeveloped hinner (ih h')

theorem split (hlength : lexems.length = slots.length) (h : Namings t owner p (lexems ++ lexems') (slots ++ slots') W) :
    ∃ A B, W = A ++ B ∧ Namings t owner p lexems slots A ∧ Namings t owner p lexems' slots' B := by
  induction lexems generalizing slots W with
  | nil =>
      obtain rfl := List.length_eq_zero_iff.mp hlength.symm
      exact ⟨[], W, rfl, .nil, h⟩
  | cons lexem lexems ih =>
      obtain ⟨slot, slots, rfl⟩ := List.exists_cons_of_length_eq_add_one hlength.symm
      rw [List.length_cons, List.length_cons, Nat.add_right_cancel_iff] at hlength
      cases h with
      | part hslot hinner houter =>
          obtain ⟨A, B, rfl, hA, hB⟩ := ih hlength houter
          exact ⟨_, B, by rw [List.append_assoc _ A], .part hslot hinner hA, hB⟩
      | component hpresent hdeveloped hinner houter =>
          obtain ⟨A, B, rfl, hA, hB⟩ := ih hlength houter
          exact ⟨_, B, by rw [List.append_assoc _ A], .component hpresent hdeveloped hinner hA, hB⟩

/-- Namings stay the same as long as the table agrees about what is held. -/
theorem congr (h : Namings t owner p lexems slots W) (hholds : Holds t slots cs)
    (hagree : ∀ id ∈ cs, Agree t t' id) : Namings t' owner p lexems slots W := by
  induction h generalizing cs with
  | nil => exact .nil
  | part hslot _ _ ihinner ihouter =>
      cases hholds with
      | component => exact absurd rfl (hslot _)
      | part _ _ hinner houter =>
          exact .part hslot (ihinner hinner fun id hid => hagree id (by simp [hid]))
            (ihouter houter fun id hid => hagree id (by simp [hid]))
  | component hpresent hdeveloped _ _ ihinner ihouter =>
      cases hholds with
      | part hslot => exact absurd rfl (hslot _)
      | component hpresent' hdeveloped' _ _ hinner houter =>
          rw [hpresent] at hpresent'
          cases hpresent'
          rw [hdeveloped] at hdeveloped'
          cases hdeveloped'
          obtain ⟨i', hpresent', hcore⟩ := (hagree _ (by simp)).some hpresent
          have houtput := ihinner hinner fun id hid => hagree id (by simp [hid])
          rw [← Census.engine_of_core hcore, ← Placed.parent_of_core hcore] at houtput
          exact .component hpresent' ((Instance.developed_of_core hcore).trans hdeveloped) houtput
            (ihouter houter fun id hid => hagree id (by simp [hid]))

/-- What is held has its namings. -/
theorem of_holds (hholds : Holds t slots cs) : ∀ {owner : Option (InstanceId × Engine)} {p : NodeId} {lexems : List Lexem},
    lexems.length = slots.length → ∃ W, Namings t owner p lexems slots W := by
  induction hholds with
  | nil =>
      intro owner p lexems hlength
      obtain rfl := List.length_eq_zero_iff.mp hlength
      exact ⟨[], .nil⟩
  | part hslot hpaired _ _ ihinner ihouter =>
      intro owner p lexems hlength
      obtain ⟨lexem, lexems, rfl⟩ := List.exists_cons_of_length_eq_add_one hlength
      obtain ⟨_, hinner⟩ := ihinner (length_lexemsOf hpaired)
      obtain ⟨_, houter⟩ := ihouter (by simpa using hlength)
      exact ⟨_, .part hslot hinner houter⟩
  | component hpresent hdeveloped hpaired _ _ _ ihinner ihouter =>
      intro owner p lexems hlength
      obtain ⟨lexem, lexems, rfl⟩ := List.exists_cons_of_length_eq_add_one hlength
      obtain ⟨_, hinner⟩ := ihinner hpaired.symm
      obtain ⟨_, houter⟩ := ihouter (by simpa using hlength)
      exact ⟨_, .component hpresent hdeveloped hinner houter⟩

/-- The namings of a component on its own: those of its output, and the word that it stands for. -/
theorem of_component {lexem : Lexem} {id : InstanceId} {i : Instance} {r : Rendered}
    (h : Namings t owner p [lexem] [.component id] W) (hpresent : t[id.index]? = some i)
    (hdeveloped : i.developed = some r) :
    ∃ inner, W = inner ++ lexem.naming owner p ∧
      Namings t (some (id, i.engine)) i.parent r.sentence.lexems r.slots inner := by
  cases h with
  | part hslot => exact absurd rfl (hslot id)
  | component hpresent' hdeveloped' hinner houter =>
      cases houter
      rw [hpresent] at hpresent'
      cases hpresent'
      rw [hdeveloped] at hdeveloped'
      cases hdeveloped'
      exact ⟨_, List.append_nil _, hinner⟩

/-- Namings belong to what is held, or to the component whose output it is. -/
theorem owner_mem (h : Namings t owner p lexems slots W) (hholds : Holds t slots cs) :
    ∀ naming ∈ W, naming.owner ∈ cs ∨ ∃ o ∈ owner, naming.owner = o.1 := by
  induction h generalizing cs with
  | nil => simp
  | part hslot _ _ ihinner ihouter =>
      cases hholds with
      | component => exact absurd rfl (hslot _)
      | part _ _ hinner houter =>
      intro naming hnaming
      simp only [List.mem_append] at hnaming ⊢
      rcases hnaming with (hnaming | hnaming) | hnaming
      · exact (ihinner hinner naming hnaming).imp_left .inl
      · exact .inr (Lexem.owner_of_naming hnaming)
      · exact (ihouter houter naming hnaming).imp_left .inr
  | component hpresent hdeveloped _ _ ihinner ihouter =>
      cases hholds with
      | part hslot => exact absurd rfl (hslot _)
      | component hpresent' hdeveloped' _ _ hinner houter =>
      rw [hpresent] at hpresent'
      cases hpresent'
      rw [hdeveloped] at hdeveloped'
      cases hdeveloped'
      intro naming hnaming
      simp only [List.mem_append, List.mem_cons] at hnaming ⊢
      rcases hnaming with (hnaming | hnaming) | hnaming
      · rcases ihinner hinner naming hnaming with hmem | ⟨_, ⟨⟩, hown⟩
        · exact .inl (.inl hmem)
        · exact .inl (.inr (.inl hown))
      · exact .inr (Lexem.owner_of_naming hnaming)
      · exact (ihouter houter naming hnaming).imp_left fun hmem => .inr (.inr hmem)

/-- The namings of the component whose output it is are the names among its words. -/
theorem own_iff {o : InstanceId × Engine} (h : Namings t (some o) p lexems slots W) (hholds : Holds t slots cs)
    (hout : o.1 ∉ cs) {name : String} {node : NodeId} :
    (⟨o.1, name, node⟩ : Naming) ∈ W ↔ (name, node) ∈ o.2.namesIn (wordsOfSlots (fun _ => []) p lexems slots) := by
  generalize howner : some o = owner at h
  induction h generalizing cs with
  | nil => simp [wordsOfSlots, Engine.namesIn]
  | part hslot _ _ ihinner ihouter =>
      subst howner
      cases hholds with
      | component => exact absurd rfl (hslot _)
      | part _ hpaired hinner houter =>
      rw [List.mem_append, not_or] at hout
      rw [wordsOfSlots, Slot.wordsWith_part hslot hpaired, List.append_cons]
      simp only [Engine.namesIn_append, List.mem_append, ihinner hinner hout.1 rfl, ihouter houter hout.2 rfl,
        Lexem.mem_naming]
  | component hpresent hdeveloped hnamings _ ihinner ihouter =>
      subst howner
      cases hholds with
      | part hslot => exact absurd rfl (hslot _)
      | component hpresent' hdeveloped' _ _ hinner houter =>
      rw [hpresent] at hpresent'
      cases hpresent'
      rw [hdeveloped] at hdeveloped'
      cases hdeveloped'
      simp only [List.mem_append, List.mem_cons, not_or] at hout
      have hnone : (⟨o.1, name, node⟩ : Naming) ∉ _ := fun hmem =>
        (hnamings.owner_mem hinner _ hmem).elim hout.1 fun hnested => by
          obtain ⟨_, heq, hown⟩ := hnested
          cases heq
          exact hout.2.1 hown
      rw [wordsOfSlots, List.append_cons]
      simp only [Engine.namesIn_append, List.mem_append, hnone, false_or, ihouter houter hout.2.2 rfl, Lexem.mem_naming,
        Slot.wordsWith, List.nil_append]

/-- The namings of a component that is held are the names that its output gives. -/
theorem held_iff (h : Namings t owner p lexems slots W) (hholds : Holds t slots cs) (hnodup : cs.Nodup)
    (hout : ∀ o ∈ owner, o.1 ∉ cs) {id : InstanceId} {i : Instance} (hid : id ∈ cs) (hpresent : t[id.index]? = some i)
    {name : String} {node : NodeId} : (⟨id, name, node⟩ : Naming) ∈ W ↔ (name, node) ∈ i.names := by
  induction h generalizing cs with
  | nil =>
      cases hholds
      simp at hid
  | @part owner p lexem slot lexems slots inner outer hslot hnamings hnamings' ihinner ihouter =>
      cases hholds with
      | component => exact absurd rfl (hslot _)
      | part _ _ hinner houter =>
      obtain ⟨hnodupA, hnodupC, hdisjoint⟩ := List.nodup_append.mp hnodup
      have hword : (⟨id, name, node⟩ : Naming) ∉ lexem.naming owner p := fun hmem => by
        obtain ⟨o, ho, rfl⟩ := Lexem.owner_of_naming hmem
        exact hout o ho hid
      have hnone : ∀ {q lexems slots V ids}, Namings t owner q lexems slots V → Holds t slots ids → id ∉ ids →
          (⟨id, name, node⟩ : Naming) ∉ V := fun hV hids hnot hmem =>
        (hV.owner_mem hids _ hmem).elim hnot fun ⟨o, ho, hown⟩ => hout o ho (by rwa [← hown])
      simp only [List.mem_append, hword, or_false]
      rcases List.mem_append.mp hid with hid' | hid'
      · simp only [hnone hnamings' houter fun hmem => hdisjoint id hid' id hmem rfl, or_false]
        exact ihinner hinner hnodupA (fun o ho hmem => hout o ho (List.mem_append_left _ hmem)) hid'
      · simp only [hnone hnamings hinner fun hmem => hdisjoint id hmem id hid' rfl, false_or]
        exact ihouter houter hnodupC (fun o ho hmem => hout o ho (List.mem_append_right _ hmem)) hid'
  | @component owner p lexem own j r lexems slots inner outer hpresent₁ hdeveloped₁ hnamings hnamings' ihinner ihouter =>
      cases hholds with
      | part hslot => exact absurd rfl (hslot _)
      | component hpresent' hdeveloped' hpaired hlater hinner houter =>
      rw [hpresent₁] at hpresent'
      cases hpresent'
      rw [hdeveloped₁] at hdeveloped'
      cases hdeveloped'
      obtain ⟨hnodupA, hnodupC, hdisjoint⟩ := List.nodup_append.mp hnodup
      obtain ⟨hfresh, hnodupC⟩ := List.nodup_cons.mp hnodupC
      have hword : (⟨id, name, node⟩ : Naming) ∉ lexem.naming owner p := fun hmem => by
        obtain ⟨o, ho, rfl⟩ := Lexem.owner_of_naming hmem
        exact hout o ho hid
      have hownNot : own ∉ _ := fun hmem => Nat.lt_irrefl _ (hlater own hmem)
      have hleft : id ≠ own → id ∉ _ → (⟨id, name, node⟩ : Naming) ∉ inner := fun hne hnot hmem =>
        (hnamings.owner_mem hinner _ hmem).elim hnot fun ⟨_, heq, hown⟩ => by
          cases heq
          exact hne hown
      have hright : id ∉ _ → (⟨id, name, node⟩ : Naming) ∉ outer := fun hnot hmem =>
        (hnamings'.owner_mem houter _ hmem).elim hnot fun ⟨o, ho, hown⟩ => hout o ho (by rwa [← hown])
      simp only [List.mem_append, hword, or_false]
      rcases List.mem_append.mp hid with hid' | hid'
      · simp only [hright fun hmem => hdisjoint id hid' id (List.mem_cons_of_mem _ hmem) rfl, or_false]
        refine ihinner hinner hnodupA ?_ hid'
        rintro _ ⟨⟩
        exact hownNot
      rcases List.mem_cons.mp hid' with rfl | hid'
      · rw [hpresent] at hpresent₁
        cases hpresent₁
        simp only [hright hfresh, or_false]
        rw [hnamings.own_iff hinner hownNot, Instance.names, hdeveloped₁]
        simp only [wordsWith_eq]
      · simp only [hleft (fun heq => hfresh (heq ▸ hid')) fun hmem => hdisjoint id hmem id (by simp [hid']) rfl, false_or]
        exact ihouter houter hnodupC (fun o ho hmem => hout o ho (by simp [hmem])) hid'

end Namings

end Parlance
