import Mathlib.Logic.Relation
import Parlance.Proofs.Lexicon.Plain

/-! Which words a word leads to. When the body of a word is run on a sentence, the words that it calls on this
sentence are looked up in the lexicon of the sentence, and their bodies go on calling words in the same way; sentences
of its own it builds with the lexicon that defines it. So of the lexicon of a sentence only the words matter to which a
word leads, and two lexicons in which these mean the same are as good as each other. -/

namespace Parlance

/-- The words that a script calls on the sentence that it extends. -/
def wordsCalled : List Call → List String
  | [] => []
  | .word name _ :: calls => name :: wordsCalled calls
  | _ :: calls => wordsCalled calls

theorem wordsCalled_cons (c : Call) (calls : List Call) :
    wordsCalled (c :: calls) = wordsCalled [c] ++ wordsCalled calls := by
  cases c <;> rfl

theorem known_of_wordsCalled {known : String → Bool} {name : String} : ∀ {calls : List Call},
    plainCalls known calls = true → name ∈ wordsCalled calls → known name = true
  | c :: calls, hplain, hname => by
      rw [plainCalls, Bool.and_eq_true] at hplain
      have htail : name ∈ wordsCalled calls → known name = true := known_of_wordsCalled hplain.2
      cases c with
      | word called args =>
          rw [Call.isPlain, Bool.and_eq_true] at hplain
          rcases List.mem_cons.mp hname with rfl | hlater
          · exact hplain.1.1
          · exact htail hlater
      | _ => exact htail hname

/-- The body that a word runs at once on a sentence of a level. -/
def Word.bodyOn : Level → Word → Option Body
  | _, .atom => none
  | .atomic, .compound body => some body
  | .firstLevel, .compound _ => none
  | _, .alias body => some body

theorem Word.body?_of_bodyOn {level : Level} {word : Word} {body : Body} (h : word.bodyOn level = some body) :
    word.body? = some body := by
  cases word <;> cases level <;> first | exact h | cases h

namespace Lexicon

/-- In the lexicon one word calls the other when it runs on a sentence of a level. -/
def Uses (l : Lexicon) (level : Level) (name called : String) : Prop :=
  ∃ owner word body, l.resolve name = some (owner, word) ∧ word.bodyOn level = some body ∧
    called ∈ wordsCalled body.calls

/-- The words to which a word leads when it runs on a sentence of a level. -/
def LeadsTo (l : Lexicon) (level : Level) : String → String → Prop := Relation.TransGen (l.Uses level)

/-- The word means the same in both lexicons, and so does every word to which it leads on the atomic level. -/
def Concurs (l l' : Lexicon) (name : String) : Prop :=
  ∀ called, Relation.ReflTransGen (l.Uses .atomic) name called → l'.resolve called = l.resolve called

variable {l l' m d o : Lexicon} {level : Level} {name called : String}

theorem Uses.congr (h : l'.resolve name = l.resolve name) : l'.Uses level name = l.Uses level name := by
  funext called
  rw [Uses, h, Uses]

/-- On the first level a word leads to no more than on the atomic level. -/
theorem LeadsTo.atomic (h : l.LeadsTo level name called) : l.LeadsTo .atomic name called := by
  refine Relation.TransGen.mono (fun a b huses => ?_) name called h
  obtain ⟨owner, word, body, hresolve, hbody, hcalled⟩ := huses
  refine ⟨owner, word, body, hresolve, ?_, hcalled⟩
  cases word <;> cases level <;> first | exact hbody | cases hbody

namespace Concurs

theorem refl (l : Lexicon) (name : String) : l.Concurs l name := fun _ _ => rfl

theorem resolve_eq (h : l.Concurs l' name) : l'.resolve name = l.resolve name := h name .refl

/-- What holds of a word holds of those that its body calls. -/
theorem of_called {owner : Lexicon} {word : Word} {body : Body} (h : l.Concurs l' name)
    (hresolve : l.resolve name = some (owner, word)) (hbody : word.body? = some body)
    (hcalled : called ∈ wordsCalled body.calls) : l.Concurs l' called := by
  have huses : l.Uses .atomic name called := by
    refine ⟨owner, word, body, hresolve, ?_, hcalled⟩
    cases word <;> exact hbody
  exact fun further hfurther => h further (.head huses hfurther)

theorem of_leadsTo (hresolve : l'.resolve name = l.resolve name)
    (h : ∀ called, l.LeadsTo .atomic name called → l'.resolve called = l.resolve called) : l.Concurs l' name := by
  intro called hcalled
  rcases Relation.reflTransGen_iff_eq_or_transGen.mp hcalled with rfl | hleads
  · exact hresolve
  · exact h called hleads

end Concurs

namespace Expandable

variable (hd : d.Expandable)
include hd

/-- A lexicon of the chain finds the words of its ancestors where they find them. -/
theorem resolve_inherited (hl : l ∈ d.chain) (ho : o ∈ l.chain) (hname : o.hasWord name = true) :
    l.resolve name = o.resolve name := by
  obtain ⟨⟨owner, word⟩, hresolve⟩ := Option.isSome_iff_exists.mp hname
  obtain ⟨howner, hword⟩ := resolve_eq_some hresolve
  rw [hresolve]
  exact hd.resolve_eq hl (mem_chain_trans l ho howner) hword

/-- A word of a lexicon of the chain leads to words of this lexicon only. -/
theorem hasWord_called (ho : o ∈ d.chain) (h : o.Uses level name called) :
    o.hasWord called = true := by
  obtain ⟨owner, word, body, hresolve, hbody, hcalled⟩ := h
  obtain ⟨howner, hword⟩ := resolve_eq_some hresolve
  have hplain := (hd.bodies owner (mem_chain_trans d ho howner)).plain hword (Word.body?_of_bodyOn hbody)
  obtain ⟨⟨owner', word'⟩, hfound⟩ := Option.isSome_iff_exists.mp (known_of_wordsCalled hplain hcalled)
  obtain ⟨howner', hword'⟩ := resolve_eq_some hfound
  exact hasWord_of_get? (mem_chain_trans o howner howner') hword'

/-- What a word of an ancestor leads to there, it leads to in every lexicon that inherits it. -/
theorem reaches_inherited (hl : l ∈ d.chain) (ho : o ∈ l.chain) (hname : o.hasWord name = true)
    (h : Relation.ReflTransGen (o.Uses level) name called) :
    o.hasWord called = true ∧ Relation.ReflTransGen (l.Uses level) name called := by
  induction h with
  | refl => exact ⟨hname, .refl⟩
  | tail _ huses ih =>
      refine ⟨hd.hasWord_called (mem_chain_trans d hl ho) huses, ih.2.tail ?_⟩
      rw [Uses.congr (hd.resolve_inherited hl ho ih.1)]
      exact huses

/-- The words of a lexicon mean the same in every lexicon of the chain that inherits them. -/
theorem concurs_inherited (hl : l ∈ d.chain) (ho : o ∈ l.chain) (hname : o.hasWord name = true) : o.Concurs l name :=
  fun _ h => hd.resolve_inherited hl ho (hd.reaches_inherited hl ho hname h).1

/-- A lexicon that concurs with one of the chain about an inherited word concurs with the one that it is inherited
from. -/
theorem concurs_owner (hm : m ∈ d.chain) (ho : o ∈ m.chain) (hname : o.hasWord name = true) (h : m.Concurs l name) :
    o.Concurs l name := by
  intro called hcalled
  obtain ⟨hfound, hreached⟩ := hd.reaches_inherited hm ho hname hcalled
  rw [h called hreached, hd.resolve_inherited hm ho hfound]

end Expandable

end Lexicon

end Parlance
