import Parlance.Engine.Output
import Parlance.Proofs.Engine.Finding
import Parlance.Proofs.Engine.Neighbours

/-! The course of a diff. It comes to one lexem after another, and from some of them it goes on to outputs inside, which
are diffed in the same way, at any depth. A diff that ends well has come to a good end wherever it came to; and wherever
it comes to, what stands there is still as it was put. -/

namespace Parlance

open Pass

/-- A diff of an output, somewhere in the course of another one. -/
structure DiffCall (ω : Type) where
  depth : Nat
  engine : Engine
  cursor : Cursor
  phrase : Phrase
  previous : Rendered
  start : Stage ω

/-- A diff of one lexem. -/
structure LexemCall (ω : Type) where
  depth : Nat
  engine : Engine
  cursor : Cursor
  index : Nat
  lexem : Lexem
  old : Lexem
  slot : Slot
  start : Stage ω

variable {ω : Type}

/-- A word is one for the engine to carry out, and is carried out as this instruction, or as a compound. -/
structure Engine.Heeds (e : Engine) (lexem : Lexem) (word : Option Instruction) : Prop where
  space : e.isTarget lexem.space = true
  args : lexem.args ≠ []
  word : e.instruction? lexem = word

variable (b : Behaviour ω)

/-- A diff comes to an end without an error. -/
def DiffCall.Ends (d : DiffCall ω) (r : Rendered) (σ : Stage ω) : Prop :=
  Engine.diffWithin b d.depth d.engine d.cursor d.phrase d.previous d.start = .ok r σ

def LexemCall.Ends (l : LexemCall ω) (slot : Slot) (σ : Stage ω) : Prop :=
  Engine.diffLexem b (Engine.renderWithin b l.depth l.engine) (Engine.diffWithin b l.depth) l.engine l.cursor l.index
    l.lexem l.old l.slot l.start = .ok slot σ

/-- A diff comes to a lexem, after those before it. -/
inductive DiffCall.Takes : DiffCall ω → LexemCall ω → Prop
  | intro {depth k : Nat} {e : Engine} {c : Cursor} {phrase : Phrase} {previous : Rendered} {lexem old : Lexem}
      {slot : Slot} {before : List Slot} {σ σ₁ : Stage ω} (hreuses : e.reuses phrase previous = false)
      (hlexem : phrase.sentence.lexems[k]? = some lexem) (hold : previous.sentence.lexems[k]? = some old)
      (hslot : previous.slots[k]? = some slot) (hcongruent : lexem.isCongruent old = true)
      (hbefore : Engine.diffLexems b (Engine.renderWithin b depth e) (Engine.diffWithin b depth) e c 0
        (phrase.sentence.lexems.take k) (previous.sentence.lexems.take k) (previous.slots.take k) σ = .ok before σ₁) :
      Takes ⟨depth + 1, e, c, phrase, previous, σ⟩ ⟨depth, e, c, k, lexem, old, slot, σ₁⟩

/-- The diff of a lexem goes on to an output inside its slot. -/
inductive LexemCall.Enters : LexemCall ω → DiffCall ω → Prop
  | compound {depth index : Nat} {e : Engine} {c : Cursor} {lexem old : Lexem} {previous : Rendered} {s : Sentence}
      {σ σ₁ : Stage ω} (hword : e.Heeds lexem none) (hargs : lexem.argsChanged old = true)
      (hdevelop : e.develop b lexem σ = .ok s σ₁) :
      Enters ⟨depth, e, c, index, lexem, old, .compound previous, σ⟩ ⟨depth, e, c, .new s, previous, σ₁⟩
  | child {depth index k : Nat} {e : Engine} {c : Cursor} {lexem old : Lexem} {tag : String} {node : NodeId} {child : Arg}
      {phrase : Phrase} {previous : Rendered} {kids before rest : List Rendered} {σ σ₁ : Stage ω}
      (hword : e.Heeds lexem (some .tag)) (htag : lexem.stringArg 0 = .ok tag) (holdTag : old.stringArg 0 = .ok tag)
      (hchild : lexem.children[k]? = some child) (hprevious : kids[k]? = some previous)
      (hother : (old.children.drop k).head?.any (·.same child) = false) (hphrase : e.childPhrase lexem child = .ok phrase)
      (hbefore : Engine.diffChildren (Engine.renderWithin b depth e) (Engine.diffWithin b depth) e (c.inside node) lexem
        (lexem.children.take k) old.children (kids.take k) σ = .ok (before, rest) σ₁) :
      Enters ⟨depth, e, c, index, lexem, old, .element node kids, σ⟩
        ⟨depth, e, c.inside node, phrase, previous, σ₁⟩
  | chosen {depth index : Nat} {e : Engine} {c : Cursor} {lexem old : Lexem} {witness : NodeId} {phrase : Phrase}
      {previous : Rendered} {σ σ₁ : Stage ω} (hword : e.Heeds lexem (some .ifElse))
      (hstays : (lexem.arg 0).isTruthy = (old.arg 0).isTruthy)
      (hchosen : Engine.chosenPhrase b lexem σ = .ok (some phrase) σ₁) :
      Enters ⟨depth, e, c, index, lexem, old, .branch witness (some previous), σ⟩
        ⟨depth, e, c.before witness, phrase, previous, σ₁⟩
  | switched {depth index : Nat} {e : Engine} {c : Cursor} {lexem old : Lexem} {witness : NodeId} {phrase : Phrase}
      {previous : Rendered} {σ σ₁ : Stage ω} (hword : e.Heeds lexem (some .switchUse))
      (hpacked : lexem.packedChanged old = true) (hstays : (lexem.arg 0).same (old.arg 0) = true)
      (hchosen : e.switchedPhrase b lexem σ = .ok (some phrase) σ₁) :
      Enters ⟨depth, e, c, index, lexem, old, .branch witness (some previous), σ⟩
        ⟨depth, e, c.before witness, phrase, previous, σ₁⟩
  | item {depth index k : Nat} {e : Engine} {c : Cursor} {lexem old : Lexem} {witness : NodeId} {phrases : List Phrase}
      {phrase : Phrase} {previous : Rendered} {items before rest : List Rendered} {σ σ₁ σ₂ : Stage ω}
      (hword : e.Heeds lexem (some .each)) (hphrases : Engine.eachPhrases b lexem σ = .ok phrases σ₁)
      (hphrase : phrases[k]? = some phrase) (hprevious : items[k]? = some previous)
      (hbefore : Engine.diffItems (Engine.renderWithin b depth e) (Engine.diffWithin b depth) e (c.before witness)
        (phrases.take k) (items.take k) σ₁ = .ok (before, rest) σ₂) :
      Enters ⟨depth, e, c, index, lexem, old, .each witness items, σ⟩
        ⟨depth, e, c.before witness, phrase, previous, σ₂⟩
  | component {depth index : Nat} {e : Engine} {c : Cursor} {lexem old : Lexem} {id : InstanceId} {i : Instance}
      {previous : Rendered} {s : Sentence} {w w' : ω} {σ : Stage ω} (hword : e.Heeds lexem (some .component))
      (hprops : (lexem.arg 1).same (old.arg 1) = false) (hpresent : σ.instances[id.index]? = some i)
      (hdeveloped : i.developed = some previous) (htold : b.lifecycle id (.setProps (lexem.arg 1)) σ.world = .ok () w)
      (hview : b.view id w = .ok s w') :
      Enters ⟨depth, e, c, index, lexem, old, .component id, σ⟩
        ⟨depth, i.engine, ⟨i.parent, i.witness, some id⟩, .new s, previous,
          (σ.onInstance id fun i => { i with developed := none }).inWorld w'⟩

/-- A diff comes to a lexem, of its own output or of one inside it. -/
inductive DiffCall.Meets : DiffCall ω → LexemCall ω → Prop
  | own {d : DiffCall ω} {l : LexemCall ω} (htakes : d.Takes b l) : Meets d l
  | deeper {d d' : DiffCall ω} {l l' : LexemCall ω} (htakes : d.Takes b l) (henters : l.Enters b d')
      (hmeets : Meets d' l') : Meets d l'

variable {b}

/-- A list with something at its first place. -/
theorem cons_of_head {α : Type} {as : List α} {a : α} (h : as[0]? = some a) : ∃ rest, as = a :: rest :=
  List.head?_eq_some_iff.mp (List.head?_eq_getElem?.trans h)

namespace Engine

section Places

variable {render : Cursor → Phrase → Pass ω Rendered} {diff : Engine → Cursor → Phrase → Rendered → Pass ω Rendered}
variable {e : Engine} {c : Cursor} {σ σ₁ σ' : Stage ω} {k index : Nat}

/-- Where the lexems before one have been diffed, this one is diffed, if all of them are. -/
theorem diffLexems_at {lexem old : Lexem} {lexems olds : List Lexem} {slot : Slot} {slots slots' before : List Slot}
    (hlexem : lexems[k]? = some lexem) (hold : olds[k]? = some old) (hslot : slots[k]? = some slot)
    (hbefore : diffLexems b render diff e c index (lexems.take k) (olds.take k) (slots.take k) σ = .ok before σ₁)
    (h : diffLexems b render diff e c index lexems olds slots σ = .ok slots' σ') :
    ∃ slot' σ₂, diffLexem b render diff e c (index + k) lexem old slot σ₁ = .ok slot' σ₂ := by
  induction k generalizing index lexems olds slots slots' before σ with
  | zero =>
      obtain ⟨lexems, rfl⟩ := cons_of_head hlexem
      obtain ⟨olds, rfl⟩ := cons_of_head hold
      obtain ⟨slots, rfl⟩ := cons_of_head hslot
      obtain ⟨-, rfl⟩ := pure_eq_ok.mp hbefore
      obtain ⟨-, slot', σ₁, rest, hhead, -⟩ := diffLexems_cons h
      exact ⟨slot', σ₁, hhead⟩
  | succ k ih =>
      cases lexems with
      | nil => cases hlexem
      | cons lexem₁ lexems =>
      cases olds with
      | nil => cases hold
      | cons old₁ olds =>
      cases slots with
      | nil => cases hslot
      | cons slot₁ slots =>
      obtain ⟨-, slot', τ, rest, hhead, htail, rfl⟩ := diffLexems_cons h
      obtain ⟨-, _, _, before, hhead', htail', rfl⟩ := diffLexems_cons hbefore
      obtain ⟨rfl, rfl⟩ := EStateM.Result.ok.inj (hhead.symm.trans hhead')
      rw [Nat.add_comm k, ← Nat.add_assoc]
      exact ih hlexem hold hslot htail' htail

theorem diffItems_at {phrase : Phrase} {phrases : List Phrase} {old : Rendered}
    {olds items rest before left : List Rendered} (hphrase : phrases[k]? = some phrase) (hold : olds[k]? = some old)
    (hbefore : diffItems render diff e c (phrases.take k) (olds.take k) σ = .ok (before, left) σ₁)
    (h : diffItems render diff e c phrases olds σ = .ok (items, rest) σ') :
    ∃ r σ₂, diff e c phrase old σ₁ = .ok r σ₂ := by
  induction k generalizing phrases olds items before σ with
  | zero =>
      obtain ⟨phrases, rfl⟩ := cons_of_head hphrase
      obtain ⟨olds, rfl⟩ := cons_of_head hold
      obtain ⟨-, rfl⟩ := pure_eq_ok.mp hbefore
      obtain ⟨r, σ₁, rs, hhead, -⟩ := diffItems_cons h
      exact ⟨r, σ₁, hhead⟩
  | succ k ih =>
      cases phrases with
      | nil => cases hphrase
      | cons phrase₁ phrases =>
      cases olds with
      | nil => cases hold
      | cons old₁ olds =>
      obtain ⟨r, τ, rs, hhead, htail, rfl⟩ := diffItems_cons h
      obtain ⟨_, _, before, hhead', htail', rfl⟩ := diffItems_cons hbefore
      obtain ⟨rfl, rfl⟩ := EStateM.Result.ok.inj (hhead.symm.trans hhead')
      exact ih hphrase hold htail' htail

theorem diffChildren_cons {tag : Lexem} {child : Arg} {children oldChildren : List Arg} {old : Rendered}
    {olds kids rest : List Rendered}
    (h : diffChildren render diff e c tag (child :: children) oldChildren (old :: olds) σ = .ok (kids, rest) σ') :
    ∃ r σ₁ rs, (do
        if oldChildren.head?.any (·.same child) then pure old
        else diff e c (← Pass.ofExcept (e.childPhrase tag child)) old : Pass ω Rendered) σ = .ok r σ₁ ∧
      diffChildren render diff e c tag children oldChildren.tail olds σ₁ = .ok (rs, rest) σ' ∧ kids = r :: rs := by
  by_cases hsame : oldChildren.head?.any (·.same child) = true
  · simp only [diffChildren, if_pos hsame, bind_eq_ok, pure_eq_ok, Prod.mk.injEq] at h
    obtain ⟨_, _, ⟨rfl, rfl⟩, ⟨rs, rest'⟩, _, hrs, ⟨rfl, rfl⟩, rfl⟩ := h
    exact ⟨_, _, rs, by rw [if_pos hsame]; rfl, hrs, rfl⟩
  · simp only [diffChildren, if_neg hsame, bind_eq_ok, ofExcept_eq_ok, pure_eq_ok, Prod.mk.injEq] at h
    obtain ⟨phrase, _, ⟨hphrase, rfl⟩, r, _, hr, ⟨rs, rest'⟩, _, hrs, ⟨rfl, rfl⟩, rfl⟩ := h
    refine ⟨r, _, rs, ?_, hrs, rfl⟩
    rw [if_neg hsame]
    exact bind_eq_ok.mpr ⟨phrase, _, ofExcept_eq_ok.mpr ⟨hphrase, rfl⟩, hr⟩

theorem diffChildren_at {tag : Lexem} {child : Arg} {children oldChildren : List Arg} {phrase : Phrase} {old : Rendered}
    {olds kids rest before left : List Rendered} (hchild : children[k]? = some child) (hold : olds[k]? = some old)
    (hother : (oldChildren.drop k).head?.any (·.same child) = false) (hphrase : e.childPhrase tag child = .ok phrase)
    (hbefore : diffChildren render diff e c tag (children.take k) oldChildren (olds.take k) σ = .ok (before, left) σ₁)
    (h : diffChildren render diff e c tag children oldChildren olds σ = .ok (kids, rest) σ') :
    ∃ r σ₂, diff e c phrase old σ₁ = .ok r σ₂ := by
  induction k generalizing children oldChildren olds kids before σ with
  | zero =>
      obtain ⟨children, rfl⟩ := cons_of_head hchild
      obtain ⟨olds, rfl⟩ := cons_of_head hold
      obtain ⟨-, rfl⟩ := pure_eq_ok.mp hbefore
      obtain ⟨r, τ, rs, hhead, -⟩ := diffChildren_cons h
      rw [List.drop_zero] at hother
      rw [hother, if_neg Bool.false_ne_true] at hhead
      obtain ⟨_, _, hsame, hdiff⟩ := bind_eq_ok.mp hhead
      rw [hphrase] at hsame
      obtain ⟨rfl, rfl⟩ := pure_eq_ok.mp hsame
      exact ⟨r, τ, hdiff⟩
  | succ k ih =>
      cases children with
      | nil => cases hchild
      | cons child₁ children =>
      cases olds with
      | nil => cases hold
      | cons old₁ olds =>
      obtain ⟨r, τ, rs, hhead, htail, rfl⟩ := diffChildren_cons h
      obtain ⟨_, _, before, hhead', htail', rfl⟩ := diffChildren_cons hbefore
      obtain ⟨rfl, rfl⟩ := EStateM.Result.ok.inj (hhead.symm.trans hhead')
      rw [← List.drop_tail] at hother
      exact ih hchild hold hother htail' htail

variable {lexem old : Lexem} {slot : Slot}

theorem Heeds.diffLexem_eq {i : Instruction} (h : e.Heeds lexem (some i)) : diffLexem b render diff e c index lexem old
    slot = diffInstruction b render diff e c index lexem old i slot := by
  unfold diffLexem
  rw [h.space, if_neg (by simpa using h.args), h.word]

theorem Heeds.diffLexem_compound {previous : Rendered} {slot' : Slot} (h : e.Heeds lexem none)
    (hargs : lexem.argsChanged old = true)
    (hrun : diffLexem b render diff e c index lexem old (.compound previous) σ = .ok slot' σ') :
    ∃ s σ₁ r, e.develop b lexem σ = .ok s σ₁ ∧ diff e c (.new s) previous σ₁ = .ok r σ' := by
  unfold diffLexem at hrun
  rw [h.space, if_neg (by simpa using h.args), h.word] at hrun
  simp only [hargs, if_true, bind_eq_ok, pure_eq_ok] at hrun
  obtain ⟨s, σ₁, hdevelop, r, _, hdiff, -, rfl⟩ := hrun
  exact ⟨s, σ₁, r, hdevelop, hdiff⟩

/-- A choice that stays is diffed. -/
theorem diffBranch_stays {witness : NodeId} {phrase : Phrase} {previous : Rendered} {slot' : Slot}
    (h : diffBranch b render diff e c witness (some phrase) (some previous) false σ = .ok slot' σ') :
    ∃ r, diff e (c.before witness) phrase previous σ = .ok r σ' := by
  simp only [diffBranch, bind_eq_ok, pure_eq_ok] at h
  obtain ⟨r, _, hdiff, _, _, ⟨-, rfl⟩, -, rfl⟩ := h
  exact ⟨r, hdiff⟩

end Places

end Engine

variable {d d' : DiffCall ω} {l : LexemCall ω} {r : Rendered} {slot : Slot} {σ : Stage ω}

/-- Each lexem that a diff comes to is diffed with success, if all are. -/
theorem DiffCall.Takes.ends (htakes : d.Takes b l) (h : d.Ends b r σ) : ∃ slot σ', l.Ends b slot σ' := by
  cases htakes with
  | @intro depth k e c phrase previous lexem old slot before σ σ₁ hreuses hlexem hold hslot _ hbefore =>
      obtain ⟨-, slots, -, hlexems⟩ := Engine.diffPhrase_diffs hreuses h
      obtain ⟨slot', σ₂, hrun⟩ := Engine.diffLexems_at hlexem hold hslot hbefore hlexems
      rw [Nat.zero_add] at hrun
      exact ⟨slot', σ₂, hrun⟩

/-- And so is each output that it goes on to. -/
theorem LexemCall.Enters.ends (henters : l.Enters b d) (h : l.Ends b slot σ) : ∃ r σ', d.Ends b r σ' := by
  unfold LexemCall.Ends at h
  cases henters with
  | compound hword hargs hdevelop =>
      obtain ⟨s, σ₁, r, hdevelop', hdiff⟩ := hword.diffLexem_compound hargs h
      obtain ⟨rfl, rfl⟩ := EStateM.Result.ok.inj (hdevelop.symm.trans hdevelop')
      exact ⟨r, _, hdiff⟩
  | child hword htag holdTag hchild hprevious hother hphrase hbefore =>
      rw [hword.diffLexem_eq] at h
      simp only [Engine.diffInstruction, Engine.diffTag, bind_eq_ok, htag, holdTag] at h
      obtain ⟨_, _, hfirst, _, _, hsecond, h⟩ := h
      obtain ⟨rfl, rfl⟩ := pure_eq_ok.mp hfirst
      obtain ⟨rfl, rfl⟩ := pure_eq_ok.mp hsecond
      simp only [ne_eq, not_true_eq_false, if_false, bind_eq_ok] at h
      obtain ⟨⟨kids', rest'⟩, σ₂, hkids, -⟩ := h
      exact Engine.diffChildren_at hchild hprevious hother hphrase hbefore hkids
  | chosen hword hstays hchosen =>
      rw [hword.diffLexem_eq] at h
      simp only [Engine.diffInstruction, bind_eq_ok, hstays, bne_self_eq_false] at h
      obtain ⟨chosen, σ₁, hchosen', h⟩ := h
      obtain ⟨rfl, rfl⟩ := EStateM.Result.ok.inj (hchosen.symm.trans hchosen')
      obtain ⟨r, hdiff⟩ := Engine.diffBranch_stays h
      exact ⟨r, _, hdiff⟩
  | switched hword hpacked hstays hchosen =>
      rw [hword.diffLexem_eq] at h
      simp only [Engine.diffInstruction, hpacked, if_true, bind_eq_ok, hstays, Bool.not_true] at h
      obtain ⟨chosen, σ₁, hchosen', h⟩ := h
      obtain ⟨rfl, rfl⟩ := EStateM.Result.ok.inj (hchosen.symm.trans hchosen')
      obtain ⟨r, hdiff⟩ := Engine.diffBranch_stays h
      exact ⟨r, _, hdiff⟩
  | item hword hphrases hphrase hprevious hbefore =>
      rw [hword.diffLexem_eq] at h
      simp only [Engine.diffInstruction, bind_eq_ok] at h
      obtain ⟨phrases', σ₁, hphrases', ⟨items', rest'⟩, σ₂, hitems, -⟩ := h
      obtain ⟨rfl, rfl⟩ := EStateM.Result.ok.inj (hphrases.symm.trans hphrases')
      exact Engine.diffItems_at hphrase hprevious hbefore hitems
  | component hword hprops hpresent hdeveloped htold hview =>
      have hstep := Engine.diffLexem_step h
      cases hstep with
      | kept hkept =>
          cases hkept with
          | foreign hspace => simp [hword.space] at hspace
          | bare hargs => exact absurd hargs hword.args
          | callback hinstruction => cases hword.word.symm.trans hinstruction
          | component _ _ _ hsame => simp [hprops] at hsame
      | component _ _ _ _ _ htold' hupdate =>
          obtain ⟨-, rfl⟩ := EStateM.Result.ok.inj (htold.symm.trans htold')
          cases hupdate with
          | absent habsent => cases hpresent.symm.trans habsent
          | viewed hpresent' hdeveloped' hview' hdiff =>
              cases hpresent.symm.trans hpresent'
              cases hdeveloped.symm.trans hdeveloped'
              obtain ⟨rfl, rfl⟩ := EStateM.Result.ok.inj (hview.symm.trans hview')
              exact ⟨_, _, hdiff⟩
      | rewritten _ _ hinstruction hrewrite =>
          cases hword.word.symm.trans hinstruction
          cases hrewrite
      | callback _ hinstruction => cases hword.word.symm.trans hinstruction
      | name _ hinstruction => cases hword.word.symm.trans hinstruction

/-- Wherever a diff comes to that ends well, the diff of that lexem ends well. -/
theorem DiffCall.Meets.ends (hmeets : d.Meets b l) (h : d.Ends b r σ) : ∃ slot σ', l.Ends b slot σ' := by
  induction hmeets generalizing r σ with
  | own htakes => exact htakes.ends h
  | deeper htakes henters _ ih =>
      obtain ⟨slot, σ₁, hlexem⟩ := htakes.ends h
      obtain ⟨r', σ₂, hinner⟩ := henters.ends hlexem
      exact ih hinner

theorem DiffCall.Meets.congruent (hmeets : d.Meets b l) : l.lexem.isCongruent l.old = true := by
  induction hmeets with
  | own htakes =>
      cases htakes
      assumption
  | deeper _ _ _ ih => exact ih

/-- Slots that are intact under a node of the host, where every node was made after the one that it stands under. -/
structure Seated (σ : Stage ω) (p : NodeId) (lexems : List Lexem) (slots : List Slot) : Prop where
  parent : p.index < σ.host.count
  intact : Intact σ p lexems slots
  rising : ∀ posts, Census .loose σ.instances p lexems slots posts → Rising posts

theorem Rising.split {posts posts' : List Post} (h : Rising (posts ++ posts')) : Rising posts ∧ Rising posts' := by
  simp only [Rising, linksOf_append, List.mem_append] at h ⊢
  exact ⟨fun link hlink => h link (.inl hlink), fun link hlink => h link (.inr hlink)⟩

namespace Seated

variable {σ σ' : Stage ω} {p : NodeId} {lexems olds olds₂ : List Lexem} {slots slots' slots₂ : List Slot} {lexem : Lexem}
variable {slot : Slot} {posts : List Post} {cs : List InstanceId}

theorem of_posts (hparent : p.index < σ.host.count) (hholds : Holds σ.instances slots cs) (hnodup : cs.Nodup)
    (hcensus : Census .loose σ.instances p lexems slots posts) (hattached : Attached σ.host (linksOf posts))
    (hrising : Rising posts) : Seated σ p lexems slots :=
  ⟨hparent, ⟨cs, posts, hholds, hnodup, hcensus, hattached⟩, fun posts' hposts' => by
    rwa [hcensus.unique hposts']⟩

theorem inWorld (h : Seated σ p olds slots) (w : ω) : Seated (σ.inWorld w) p olds slots :=
  ⟨h.parent, h.intact, h.rising⟩

theorem left (hlength : olds.length = slots.length) (h : Seated σ p (olds ++ olds₂) (slots ++ slots₂)) :
    Seated σ p olds slots := by
  refine ⟨h.parent, h.intact.left hlength, fun posts hposts => ?_⟩
  obtain ⟨_, posts₂, -, -, hposts₂, -⟩ := h.intact.right hlength
  exact (h.rising _ (hposts.append hposts₂)).split.1

theorem right (hlength : olds.length = slots.length) (h : Seated σ p (olds ++ olds₂) (slots ++ slots₂)) :
    Seated σ p olds₂ slots₂ := by
  refine ⟨h.parent, h.intact.right hlength, fun posts₂ hposts₂ => ?_⟩
  obtain ⟨_, posts, -, -, hposts, -⟩ := h.intact.left hlength
  exact (h.rising _ (hposts.append hposts₂)).split.2

/-- The first slots evolve, and the rest stays seated. -/
theorem evolve (hquiet : b.Quiet) (hlength : olds.length = slots.length)
    (h : Seated σ p (olds ++ olds₂) (slots ++ slots₂))
    (hevolves : Evolves .loose b p (fun _ => True) σ olds slots σ' lexems slots') : Seated σ' p olds₂ slots₂ := by
  obtain ⟨cs, posts, hholds, hnodup, hcensus, hattached⟩ := h.intact
  obtain ⟨cs', posts', hholds', hnodup', hcensus', hmoves⟩ :=
    hevolves.row hquiet.keepsNodes h.parent hlength hholds hnodup hcensus hattached
  obtain ⟨-, hattached'⟩ := hmoves.attached (R := ⟨0, False, False⟩) hquiet id (Nat.zero_le _) hattached
  have hrising' : Rising posts' :=
    hmoves.preserves (I := fun _ posts => Rising posts) (fun hmove => hmove.rising) (h.rising posts hcensus)
  have hall : Seated σ' p (lexems ++ olds₂) (slots' ++ slots₂) :=
    of_posts (Nat.lt_of_lt_of_le h.parent hmoves.count_le) hholds' hnodup' hcensus' hattached' hrising'
  have hlengths := hcensus.length_eq
  have hlengths' := hcensus'.length_eq
  rw [List.length_append, List.length_append] at hlengths hlengths'
  exact hall.right (by omega)

/-- What is inside a slot is seated under the node that it stands on. -/
theorem parts (hslot : ∀ id, slot ≠ .component id) (h : Seated σ p [lexem] [slot]) :
    (∀ r ∈ slot.parts, r.Paired) ∧ Seated σ (slot.inside p) (lexemsOf slot.parts) (slotsOf slot.parts) := by
  obtain ⟨hpaired, hintact⟩ := h.intact.parts hslot
  have ⟨_, inner, _, _, hinner, _⟩ := hintact
  have hcensus : Census .loose σ.instances p [lexem] [slot] (inner ++ [⟨p, lexem, slot.mark⟩]) :=
    .part hslot nofun hinner .nil
  refine ⟨hpaired, ?_, hintact, fun posts hposts => ?_⟩
  · cases slot with
    | element n kids =>
        obtain ⟨_, posts, -, -, hposts, hattached⟩ := h.intact
        rw [hcensus.unique hposts] at hattached
        exact hattached.made (p, n) (by simp [linksOf_append, linksOf_cons, Slot.mark, Mark.tops])
    | _ => exact h.parent
  · rw [hinner.unique hposts]
    exact (h.rising _ hcensus).split.1

/-- A single output inside a slot of the same parent. -/
theorem part {r : Rendered} (h : Seated σ p [lexem] [slot]) (hslot : ∀ id, slot ≠ .component id)
    (hparts : slot.parts = [r]) (hinside : slot.inside p = p) : r.Paired ∧ Seated σ p r.sentence.lexems r.slots := by
  obtain ⟨hpaired, hseated⟩ := h.parts hslot
  rw [hparts] at hpaired hseated
  rw [hinside] at hseated
  exact ⟨hpaired r List.mem_cons_self, by simpa using hseated⟩

/-- The output of a component is seated, also when the component forgets it. -/
theorem output {id : InstanceId} {i : Instance} {r : Rendered} (h : Seated σ p [lexem] [.component id])
    (hpresent : σ.instances[id.index]? = some i) (hdeveloped : i.developed = some r) :
    i.parent = p ∧ r.Paired ∧
      Seated (σ.onInstance id fun i => { i with developed := none }) p r.sentence.lexems r.slots := by
  obtain ⟨hparent, hpaired, hintact⟩ := h.intact.output hpresent hdeveloped
  obtain ⟨cs, posts, hholds, -, hcensus, -⟩ := h.intact
  obtain ⟨inner, witness, rfl, -, -, -, -, hinner⟩ := hcensus.of_component hpresent hdeveloped
  obtain ⟨i', r', own, rfl, hpresent', hdeveloped', -, hlater, hown⟩ := hholds.of_component
  cases hpresent.symm.trans hpresent'
  cases hdeveloped.symm.trans hdeveloped'
  have hagree : ∀ child ∈ own, Agree σ.instances (σ.instances.modify id.index fun i => { i with developed := none })
      child := fun child hchild => agree_modify _ _ fun heq => Nat.lt_irrefl _ (hlater id (heq ▸ hchild))
  refine ⟨hparent, hpaired, h.parent, hintact, fun posts hposts => ?_⟩
  rw [(hinner.congr hown hagree).unique hposts]
  exact (h.rising _ hcensus).split.1

end Seated

/-- A diff is of an output that is seated. -/
structure DiffCall.Seated (d : DiffCall ω) : Prop where
  paired : d.previous.Paired
  seated : Parlance.Seated d.start d.cursor.parent d.previous.sentence.lexems d.previous.slots

def LexemCall.Seated (l : LexemCall ω) : Prop := Parlance.Seated l.start l.cursor.parent [l.old] [l.slot]

/-- Elements before a place, the one at that place, and those after it. -/
theorem take_append_drop_at {α : Type} {as : List α} {k : Nat} {a : α} (h : as[k]? = some a) :
    as = as.take k ++ ([a] ++ as.drop (k + 1)) := by
  obtain ⟨hlt, heq⟩ := List.getElem?_eq_some_iff.mp h
  rw [← heq, List.singleton_append, ← List.drop_eq_getElem_cons hlt, List.take_append_drop]

theorem length_take_at {α : Type} {as : List α} {k : Nat} {a : α} (h : as[k]? = some a) : (as.take k).length = k := by
  rw [List.length_take, Nat.min_eq_left (Nat.le_of_lt (List.getElem?_eq_some_iff.mp h).1)]

theorem length_withFormer {α : Type} (as olds : List α) : (withFormer as olds).length = as.length := by
  induction as generalizing olds with
  | nil => rfl
  | cons a as ih => rw [withFormer, List.length_cons, List.length_cons, ih]

section Carrying

variable (hquiet : b.Quiet)
include hquiet

theorem DiffCall.Takes.seated (htakes : d.Takes b l) (h : d.Seated) : l.Seated := by
  cases htakes with
  | @intro depth k e c phrase previous lexem old slot before σ σ₁ _ hlexem hold hslot _ hbefore =>
      have hadmits : Regime.loose.Admits e := fun _ he => by cases he
      obtain ⟨-, hseated⟩ := h
      dsimp only at hseated
      rw [take_append_drop_at hold, take_append_drop_at hslot] at hseated
      have hsteps := Engine.diffLexems_ok (by rw [length_take_at hlexem, length_take_at hold])
        (by rw [length_take_at hslot, length_take_at hold]) hbefore
      have hevolves : Evolves .loose b c.parent (fun _ => True) σ _ _ σ₁ _ _ :=
        DiffSteps.evolves hadmits (renderWithin_evolves hadmits) (renderWithin_renewal _) diffWithin_evolves
          (diffWithin_renewal _) hsteps
      exact (hseated.evolve hquiet (by rw [length_take_at hold, length_take_at hslot]) hevolves).left rfl

/-- Outputs past those that have been diffed are still seated. -/
theorem Engine.Matching.seated {α : Type} {new : α → Stage ω → Rendered → Stage ω → Prop}
    {kept : α → Rendered → Stage ω → Rendered → Stage ω → Prop} {as : List α} {olds rs rest more : List Rendered}
    {p : NodeId} {σ σ' : Stage ω}
    (hkept : ∀ {a old σ r σ'}, kept a old σ r σ' → EvolvesAll .loose b p (fun _ => True) σ [old] σ' [r])
    (h : Engine.Matching new kept as olds σ rs rest σ') (hlength : as.length = olds.length)
    (hpaired : ∀ r ∈ olds, r.Paired) (hseated : Seated σ p (lexemsOf (olds ++ more)) (slotsOf (olds ++ more))) :
    Seated σ' p (lexemsOf more) (slotsOf more) := by
  induction h with
  | rest =>
      obtain rfl := List.length_eq_zero_iff.mp hlength.symm
      exact hseated
  | new => simp at hlength
  | @kept _ _ old _ _ _ _ _ _ _ head _ ih =>
      rw [List.cons_append, lexemsOf_cons, slotsOf_cons] at hseated
      have hold := hpaired old List.mem_cons_self
      have hevolves := (hkept head).evolves (by simpa using hold)
      simp only [lexemsOf_cons, slotsOf_cons, lexemsOf_nil, slotsOf_nil, List.append_nil] at hevolves
      exact ih (by simpa using hlength) (fun r hr => hpaired r (List.mem_cons_of_mem _ hr))
        (hseated.evolve hquiet hold.symm hevolves)

/-- So is the output at the place that they have come to. -/
theorem Engine.Matching.seated_at {α : Type} {new : α → Stage ω → Rendered → Stage ω → Prop}
    {kept : α → Rendered → Stage ω → Rendered → Stage ω → Prop} {as : List α} {olds rs rest : List Rendered} {k : Nat}
    {previous : Rendered} {p : NodeId} {σ σ' : Stage ω}
    (hkept : ∀ {a old σ r σ'}, kept a old σ r σ' → EvolvesAll .loose b p (fun _ => True) σ [old] σ' [r])
    (h : Engine.Matching new kept as (olds.take k) σ rs rest σ') (hlength : as.length = k)
    (hprevious : olds[k]? = some previous) (hpaired : ∀ r ∈ olds, r.Paired)
    (hseated : Seated σ p (lexemsOf olds) (slotsOf olds)) :
    previous.Paired ∧ Seated σ' p previous.sentence.lexems previous.slots := by
  have hown := hpaired previous (List.mem_of_getElem? hprevious)
  rw [take_append_drop_at hprevious] at hseated
  have hrest := h.seated hquiet hkept (by rw [hlength, length_take_at hprevious])
    (fun r hr => hpaired r (List.mem_of_mem_take hr)) hseated
  rw [List.singleton_append, lexemsOf_cons, slotsOf_cons] at hrest
  exact ⟨hown, hrest.left hown.symm⟩

theorem LexemCall.Enters.seated (henters : l.Enters b d) (h : l.Seated) : d.Seated := by
  have hdiffed : ∀ {depth : Nat} {e : Engine} {c : Cursor} {phrase : Phrase} {old r : Rendered} {σ σ' : Stage ω},
      Engine.diffWithin b depth e c phrase old σ = .ok r σ' →
      EvolvesAll .loose b c.parent (fun _ => True) σ [old] σ' [r] := fun hrun =>
        (diffWithin_evolves (fun _ he => by cases he) hrun).2
  unfold LexemCall.Seated at h
  cases henters with
  | compound _ _ hdevelop =>
      obtain ⟨w, rfl, -⟩ := Engine.develop_inWorld hdevelop
      obtain ⟨hpaired, hseated⟩ := h.part (by simp) rfl rfl
      exact ⟨hpaired, hseated.inWorld w⟩
  | child _ _ _ hchild hprevious _ _ hbefore =>
      obtain ⟨hpaired, hseated⟩ := h.parts (by simp)
      obtain ⟨hown, hthere⟩ := (Engine.diffChildren_ok hbefore).seated_at hquiet (p := (Slot.element _ _).inside _)
        (fun hstep => by
          cases hstep with
          | same => exact .refl
          | diffed _ hrun => exact hdiffed hrun)
        (by rw [length_withFormer, length_take_at hchild]) hprevious hpaired hseated
      exact ⟨hown, hthere⟩
  | chosen _ _ hchosen =>
      obtain ⟨w, rfl, -⟩ := Engine.chosenPhrase_inWorld hchosen
      obtain ⟨hpaired, hseated⟩ := h.part (by simp) rfl rfl
      exact ⟨hpaired, hseated.inWorld w⟩
  | switched _ _ _ hchosen =>
      obtain ⟨w, rfl, -⟩ := Engine.switchedPhrase_inWorld hchosen
      obtain ⟨hpaired, hseated⟩ := h.part (by simp) rfl rfl
      exact ⟨hpaired, hseated.inWorld w⟩
  | item _ hphrases hphrase hprevious hbefore =>
      obtain ⟨w, rfl, -⟩ := Engine.eachPhrases_inWorld hphrases
      obtain ⟨hpaired, hseated⟩ := h.parts (by simp)
      obtain ⟨hown, hthere⟩ := (Engine.diffItems_ok hbefore).seated_at hquiet hdiffed (length_take_at hphrase) hprevious
        hpaired (hseated.inWorld w)
      exact ⟨hown, hthere⟩
  | component _ _ hpresent hdeveloped _ _ =>
      obtain ⟨hparent, hpaired, hseated⟩ := h.output hpresent hdeveloped
      exact ⟨hpaired, hparent ▸ hseated.inWorld _⟩

/-- Wherever a diff of an output that is seated comes to, the slot is seated. -/
theorem DiffCall.Meets.seated (hmeets : d.Meets b l) (h : d.Seated) : l.Seated := by
  induction hmeets with
  | own htakes => exact htakes.seated hquiet h
  | deeper htakes henters _ ih => exact ih (henters.seated hquiet (htakes.seated hquiet h))

end Carrying

end Parlance
