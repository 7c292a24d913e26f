import Parlance.Engine.Output
import Parlance.Proofs.Engine.Rewriting
import Parlance.Proofs.Engine.Unfolding

/-! Elements whose one child is a sentence of words that only put entries on them. Both passes succeed on such an
element: rendering writes all entries in the order of the words, and a diff goes through the words side by side and
lets each amend the element on its own, without a look at the others. -/

namespace Parlance

open Host Pass

/-- A new element that is written on holds what was written last at each place. -/
theorem Host.held_written (h : Host) (c : Cursor) (tag : String) (ws : List Write) :
    h.next.index < ((h.putElement c tag).writeAll h.next ws).count ∧
      ∀ π, (((h.putElement c tag).writeAll h.next ws).content h.next).held π = lastAt (ws.map Write.entry) π := by
  have hmakes : Makes (.element tag) c.parent h (h.putElement c tag) :=
    putNode_makes h c.parent (.element tag) c.anchor _
  have hnext : h.next.index < (h.putElement c tag).count := hmakes.count ▸ Nat.lt_succ_self _
  have hwritten := writeAll_touches hnext ws
  refine ⟨hwritten.count ▸ hnext, fun π => (hwritten.held π).trans ?_⟩
  rw [hmakes.content, if_pos rfl, Content.held_new, overlay, Option.isSome_none, if_neg Bool.false_ne_true,
    Option.or_none]

namespace Engine

variable {ω : Type} {b : Behaviour ω} {e : Engine} {c : Cursor} {n : NodeId} {σ : Stage ω} {depth : Nat}
variable {lexem old : Lexem} {lexems olds : List Lexem} {ws ws' : List Write} {wss wss' : List (List Write)}

/-- A word that only puts entries on its node, with its arguments in order. -/
structure Inscribes (e : Engine) (lexem : Lexem) (ws : List Write) : Prop where
  target : e.isTarget lexem.space = true
  args : lexem.args ≠ []
  writes : (e.instruction? lexem).bind lexem.writes = some ws

/-- What a diff does to a node for one word. -/
def amend (e : Engine) (n : NodeId) (lexem old : Lexem) (h : Host) : Host :=
  ((e.instruction? lexem).bind (e.rewrite lexem old n)).elim h (· h)

/-- What a diff does to a node for all words of a sentence. -/
def amendAll (e : Engine) (n : NodeId) : List Lexem → List Lexem → Host → Host
  | lexem :: lexems, old :: olds, h => amendAll e n lexems olds (e.amend n lexem old h)
  | _, _, h => h

/-- Lexems with the same words, position by position. -/
def Congruent : List Lexem → List Lexem → Prop := List.Forall₂ fun lexem old => lexem.isCongruent old = true

theorem Inscribes.word (hwrites : e.Inscribes lexem ws) :
    ∃ i, e.instruction? lexem = some i ∧ lexem.writes i = some ws := Option.bind_eq_some_iff.mp hwrites.writes

theorem instruction_of_congruent (hcongruent : lexem.isCongruent old = true) :
    e.instruction? lexem = e.instruction? old := by
  simp only [Lexem.isCongruent, Bool.and_eq_true, decide_eq_true_eq] at hcongruent
  exact instruction_congr hcongruent.2 hcongruent.1

/-- A word that writes can be carried out again over one that wrote. -/
theorem rewrite_of_writes {i : Instruction} (hwrites : lexem.writes i = some ws) (hold : old.writes i = some ws') :
    ∃ f, e.rewrite lexem old n i = some f := by
  have hentry : ∀ {set : String → String → Host → Host} {remove : String → Host → Host} {key oldKey : String},
      lexem.stringArg 0 = .ok key → old.stringArg 0 = .ok oldKey →
        ∃ f, (lexem.diffEntry old set remove).toOption = some f := by
    intro set remove key oldKey hkey holdKey
    refine Option.isSome_iff_exists.mp ?_
    rw [Lexem.diffEntry, hkey, holdKey]
    change (Except.toOption (if _ then _ else if _ then _ else _)).isSome = true
    repeat' split
    all_goals rfl
  cases i with
  | attr | data | style =>
      obtain ⟨key, hkey, -⟩ := Lexem.entry_of_writes hwrites
      obtain ⟨oldKey, holdKey, -⟩ := Lexem.entry_of_writes hold
      exact hentry hkey holdKey
  | prop =>
      obtain ⟨name, value, hname, hvalue, -⟩ := Lexem.property_of_writes hwrites
      obtain ⟨oldName, -, holdName, -, -⟩ := Lexem.property_of_writes hold
      refine Option.isSome_iff_exists.mp ?_
      rw [rewrite, Lexem.diffProperty, hname, holdName, hvalue]
      change (Except.toOption (if _ then _ else if _ then _ else if _ then _ else _)).isSome = true
      repeat' split
      all_goals rfl
  | cssClass | classes | id => exact ⟨_, rfl⟩
  | _ => cases hwrites

section Passes

variable {inner : Cursor → Phrase → Pass ω Rendered} {diff : Engine → Cursor → Phrase → Rendered → Pass ω Rendered}

theorem renderLexem_inscribes (hwrites : e.Inscribes lexem ws) :
    renderLexem b inner e c lexem σ = .ok .attribute (σ.onHost (·.writeAll c.parent ws)) := by
  obtain ⟨i, hword, hws⟩ := hwrites.word
  rw [renderLexem, if_pos hwrites.target, hword]
  exact renderInstruction_of_writes hws

theorem renderLexems_inscribe (hwrites : List.Forall₂ e.Inscribes lexems wss) :
    lexems.mapM (renderLexem b inner e c) σ =
      .ok (lexems.map fun _ => .attribute) (σ.onHost (·.writeAll c.parent wss.flatten)) := by
  refine mapM_eq_ok.mpr ?_
  induction hwrites generalizing σ with
  | nil => exact .nil
  | @cons lexem ws lexems wss hhead _ ih =>
      have hrest := @ih (σ.onHost (·.writeAll c.parent ws))
      simp only [List.flatten_cons, writeAll, List.foldl_append]
      exact .cons (renderLexem_inscribes hhead) hrest

theorem diffLexem_inscribes {index : Nat} {slot : Slot} (hwrites : e.Inscribes lexem ws) (hold : e.Inscribes old ws')
    (hcongruent : lexem.isCongruent old = true) :
    diffLexem b inner diff e c index lexem old slot σ = .ok slot (σ.onHost (e.amend c.parent lexem old)) := by
  obtain ⟨i, hword, hws⟩ := hwrites.word
  obtain ⟨i', hword', hws'⟩ := hold.word
  obtain rfl : i = i' := by
    rw [← instruction_of_congruent hcongruent, hword] at hword'
    exact Option.some.inj hword'
  obtain ⟨f, hf⟩ := rewrite_of_writes (e := e) (n := c.parent) hws hws'
  have hamend : e.amend c.parent lexem old = f := by
    funext h
    rw [amend, hword, Option.bind_some, hf]
    rfl
  have hargs : lexem.args.isEmpty = false := List.isEmpty_eq_false_iff.mpr hwrites.args
  have hlexem : diffLexem b inner diff e c index lexem old slot σ =
      diffInstruction b inner diff e c index lexem old i slot σ := by
    simp only [diffLexem, hwrites.target, hargs, hword]
    rfl
  rw [hlexem, hamend]
  cases i with
  | attr | prop | data | style =>
      simp only [diffInstruction, bind_eq_ok, ofExcept_eq_ok, edit_eq_ok, pure_eq_ok]
      exact ⟨f, σ, ⟨Except.ok_of_toOption hf, rfl⟩, (), _, rfl, trivial, rfl⟩
  | cssClass | classes =>
      cases hf
      rfl
  | id =>
      cases hf
      cases hsame : (lexem.arg 0).same (old.arg 0) with
      | true => simp only [diffInstruction, hsame, if_true, pure_eq_ok, true_and]; rfl
      | false => simp only [diffInstruction, hsame]; rfl
  | _ => cases hws

theorem diffLexems_inscribe {index : Nat} (hwrites : List.Forall₂ e.Inscribes lexems wss)
    (hold : List.Forall₂ e.Inscribes olds wss') (hcongruent : Congruent lexems olds) :
    diffLexems b inner diff e c index lexems olds (olds.map fun _ => .attribute) σ =
      .ok (lexems.map fun _ => .attribute) (σ.onHost (e.amendAll c.parent lexems olds)) := by
  induction hcongruent generalizing index wss wss' σ with
  | nil => rfl
  | @cons lexem old lexems olds hhead _ ih =>
      cases hwrites with
      | cons hlexem hwrites =>
      cases hold with
      | cons hformer hold =>
      have hrest : diffLexems b inner diff e c (index + 1) lexems olds (olds.map fun _ => .attribute)
          (σ.onHost (e.amend c.parent lexem old)) = _ := ih hwrites hold
      simp only [List.map_cons, diffLexems, hhead, if_true, bind_eq_ok]
      exact ⟨_, _, diffLexem_inscribes hlexem hformer hhead, _, _, hrest, rfl⟩

end Passes

/-- What is kept for a sentence of words that only put entries on their node. -/
def inscribed (phrase : Phrase) : Rendered :=
  ⟨phrase.identity, phrase.sentence, phrase.sentence.lexems.map fun _ => .attribute⟩

theorem renderWithin_inscribed {phrase : Phrase} (hwrites : List.Forall₂ e.Inscribes phrase.sentence.lexems wss) :
    renderWithin b (depth + 1) e c phrase σ = .ok (inscribed phrase) (σ.onHost (·.writeAll c.parent wss.flatten)) :=
  bind_eq_ok.mpr ⟨_, _, renderLexems_inscribe hwrites, rfl⟩

theorem diffWithin_inscribed {phrase former : Phrase} (hreuses : e.reuses phrase (inscribed former) = false)
    (hwrites : List.Forall₂ e.Inscribes phrase.sentence.lexems wss)
    (hold : List.Forall₂ e.Inscribes former.sentence.lexems wss')
    (hcongruent : Congruent phrase.sentence.lexems former.sentence.lexems) :
    diffWithin b (depth + 1) e c phrase (inscribed former) σ = .ok (inscribed phrase)
      (σ.onHost (e.amendAll c.parent phrase.sentence.lexems former.sentence.lexems)) := by
  have hlength : phrase.sentence.length = (inscribed former).sentence.length := hcongruent.length_eq
  rw [diffWithin, diffPhrase, hreuses]
  simp only [hlength, ne_eq, not_true_eq_false, if_false]
  exact bind_eq_ok.mpr ⟨_, _, diffLexems_inscribe hwrites hold hcongruent, rfl⟩

/-- A word for an element whose one child is a sentence. -/
structure Boxes (e : Engine) (lexem : Lexem) (tag : String) (identity : Identity) (s : Sentence) : Prop where
  target : e.isTarget lexem.space = true
  word : e.instruction? lexem = some .tag
  named : lexem.stringArg 0 = .ok tag
  holds : lexem.children = [.sentence identity s]

section Boxing

variable {box box' : Lexem} {tag : String} {i i' : Identity} {s s' : Sentence} {lexicon lexicon' : Lexicon}
  {level level' : Level}

theorem Boxes.args (hbox : e.Boxes box tag i s) : box.args ≠ [] := by
  intro hargs
  have hnamed := hbox.named
  rw [Lexem.stringArg, Lexem.arg, hargs] at hnamed
  cases hnamed

/-- The element is made and then written on. -/
theorem renderWithin_box (hbox : e.Boxes box tag i s) (hwrites : List.Forall₂ e.Inscribes s.lexems wss) :
    renderWithin b (depth + 2) e c (.new ⟨lexicon, level, [box]⟩) σ =
      .ok ⟨none, ⟨lexicon, level, [box]⟩, [.element σ.host.next [inscribed ⟨some i, s⟩]]⟩
        (σ.onHost fun h => (h.putElement c tag).writeAll h.next wss.flatten) := by
  refine renderWithin_single ?_
  have hchild : renderWithin b (depth + 1) e (c.inside σ.host.next) ⟨some i, s⟩ (σ.onHost (·.putElement c tag)) = _ :=
    renderWithin_inscribed hwrites
  have hmake : (Pass.make fun host => (host.next, host.putElement c tag) : Pass ω NodeId) σ =
      .ok σ.host.next (σ.onHost (·.putElement c tag)) := rfl
  rw [renderLexem, if_pos hbox.target, hbox.word]
  change renderTag _ e c box σ = _
  rw [renderTag, hbox.holds]
  refine bind_eq_ok.mpr ⟨tag, σ, ofExcept_eq_ok.mpr ⟨hbox.named, rfl⟩, bind_eq_ok.mpr ⟨_, _, hmake, ?_⟩⟩
  refine bind_eq_ok.mpr ⟨_, _, mapM_eq_ok.mpr (.cons (bind_eq_ok.mpr ⟨_, _, ?_, hchild⟩) .nil), rfl⟩
  exact ofExcept_eq_ok.mpr ⟨rfl, rfl⟩

/-- The element stays, and the words inside it are gone through unless they are the very sentence that was there. -/
theorem diffWithin_box (hbox' : e.Boxes box' tag i' s') (hbox : e.Boxes box tag i s)
    (hcongruent : box'.isCongruent box = true) (hwrites : List.Forall₂ e.Inscribes s'.lexems wss)
    (hold : List.Forall₂ e.Inscribes s.lexems wss') (hwords : Congruent s'.lexems s.lexems) : ∃ r,
    diffWithin b (depth + 2) e c (.new ⟨lexicon', level', [box']⟩)
        ⟨none, ⟨lexicon, level, [box]⟩, [.element n [inscribed ⟨some i, s⟩]]⟩ σ =
      .ok r (σ.onHost fun h => if i' = i then h else e.amendAll n s'.lexems s.lexems h) := by
  have hchildren : ∃ kid, diffChildren (renderWithin b (depth + 1) e) (diffWithin b (depth + 1)) e (c.inside n) box'
      [.sentence i' s'] [.sentence i s] [inscribed ⟨some i, s⟩] σ =
        .ok ([kid], []) (σ.onHost fun h => if i' = i then h else e.amendAll n s'.lexems s.lexems h) := by
    by_cases hid : i' = i
    · refine ⟨inscribed ⟨some i, s⟩, ?_⟩
      simp only [diffChildren, List.head?_cons, Option.any_some, Arg.same, hid, decide_true, if_true]
      rfl
    · have hreuses : e.reuses ⟨some i', s'⟩ (inscribed ⟨some i, s⟩) = false := by
        simp [reuses, inscribed, hid]
      have hchild : diffWithin b (depth + 1) e (c.inside n) ⟨some i', s'⟩ (inscribed ⟨some i, s⟩) σ = _ :=
        diffWithin_inscribed hreuses hwrites hold hwords
      refine ⟨inscribed ⟨some i', s'⟩, ?_⟩
      simp only [diffChildren, List.head?_cons, Option.any_some, Arg.same, Ne.symm hid, hid, decide_false,
        Bool.false_eq_true, if_false]
      exact bind_eq_ok.mpr ⟨_, σ, rfl, bind_eq_ok.mpr ⟨_, _, hchild, rfl⟩⟩
  obtain ⟨kid, hchildren⟩ := hchildren
  have hargs : box'.args.isEmpty = false := List.isEmpty_eq_false_iff.mpr hbox'.args
  have hlexem : diffLexem b (renderWithin b (depth + 1) e) (diffWithin b (depth + 1)) e c 0 box' box
      (.element n [inscribed ⟨some i, s⟩]) σ = diffTag b (renderWithin b (depth + 1) e) (diffWithin b (depth + 1)) e c
        box' box n [inscribed ⟨some i, s⟩] σ := by
    simp only [diffLexem, hbox'.target, hargs, hbox'.word]
    rfl
  have hslot : diffLexem b (renderWithin b (depth + 1) e) (diffWithin b (depth + 1)) e c 0 box' box
      (.element n [inscribed ⟨some i, s⟩]) σ = .ok (.element n [kid])
        (σ.onHost fun h => if i' = i then h else e.amendAll n s'.lexems s.lexems h) := by
    rw [hlexem, diffTag, hbox'.holds, hbox.holds]
    refine bind_eq_ok.mpr ⟨tag, σ, ofExcept_eq_ok.mpr ⟨hbox'.named, rfl⟩,
      bind_eq_ok.mpr ⟨tag, σ, ofExcept_eq_ok.mpr ⟨hbox.named, rfl⟩, ?_⟩⟩
    rw [if_neg (by simp)]
    exact bind_eq_ok.mpr ⟨_, _, hchildren, bind_eq_ok.mpr ⟨(), _, rfl, rfl⟩⟩
  exact ⟨_, diffWithin_single hcongruent hslot⟩

end Boxing

end Engine

end Parlance
