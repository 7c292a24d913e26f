import Mathlib.Data.List.Nodup
import Mathlib.Data.List.Pairwise
import Parlance.Lexicon.Basic

/-! Plain scripts and lexicons made of them. A plain script calls words, appends lexems and splices sentences of
its own; of its arguments it asks no more than what they say, so that a sentence among them is only handed on.
In a lexicon without ambiguity every word is found at its one definition, from wherever on the chain it is looked
up. -/

namespace Parlance

/-- Whether an expression always stands for a scalar that does not depend on any identity. -/
def Expr.isScalar : Expr → Bool
  | .null | .bool _ | .number _ | .str _ | .join _ | .sum _ | .length _ | .truthy _ | .negation _ => true
  | _ => false

section Plain

variable (known : String → Bool)

mutual

/-- Whether an expression looks at nothing but its arguments, and calls only known words. -/
def Expr.isPlain : Expr → Bool
  | .null | .bool _ | .number _ | .str _ | .arg _ | .rest _ | .record _ | .handler _ _ | .callback _ => true
  | .sentence calls none none => plainCalls calls
  | .list items | .join items | .sum items => plainExprs items
  | .given value | .length value | .truthy value | .negation value => value.isPlain
  | .push list item => list.isPlain && item.isPlain
  | .drop list index | .nth list index => list.isPlain && index.isPlain
  | .same left right => (left.isScalar || right.isScalar) && (left.isPlain && right.isPlain)
  | .choose condition yes no => condition.isPlain && (yes.isPlain && no.isPlain)
  | _ => false

def plainExprs : List Expr → Bool
  | [] => true
  | e :: es => e.isPlain && plainExprs es

/-- Whether a call is a word, an appended lexem or a spliced sentence. -/
def Call.isPlain : Call → Bool
  | .word name args => known name && plainExprs args
  | .append _ _ args => plainExprs args
  | .splice (.sentence calls none none) => plainCalls calls
  | _ => false

def plainCalls : List Call → Bool
  | [] => true
  | c :: cs => c.isPlain && plainCalls cs

end

end Plain

def Word.body? : Word → Option Body
  | .atom => none
  | .compound body | .alias body => some body

theorem Entries.mem_of_get? {α : Type} {entries : Entries α} {name : String} {value : α}
    (h : entries.get? name = some value) : (name, value) ∈ entries := by
  induction entries with
  | nil => cases h
  | cons entry entries ih =>
      unfold Entries.get? at h
      split at h
      · next hname =>
        cases h
        exact hname ▸ List.mem_cons_self
      · exact List.mem_cons_of_mem _ (ih h)

namespace Lexicon

/-- Every body of the lexicon is plain, and calls only words of the chain of the lexicon. -/
def CallOnly (l : Lexicon) : Prop :=
  ∀ entry ∈ l.words, ∀ body ∈ entry.2.body?, plainCalls l.hasWord body.calls = true

/-- No two lexicons of the chain have one name, no word is defined twice along the chain, and all bodies are
call-only. -/
structure Expandable (l : Lexicon) : Prop where
  names : (l.chain.map Lexicon.name).Nodup
  words : (l.chain.flatMap ownWords).Nodup
  bodies : ∀ owner ∈ l.chain, owner.CallOnly

variable {l l' owner : Lexicon} {name : String} {word : Word}

theorem mem_chain_self (l : Lexicon) : l ∈ l.chain := by
  rcases l with ⟨_, _ | _, _⟩ <;> simp [chain]

theorem mem_chain_trans (l : Lexicon) {m o : Lexicon} (hm : m ∈ l.chain) (ho : o ∈ m.chain) : o ∈ l.chain := by
  match l with
  | ⟨_, none, _⟩ =>
      rw [chain, List.mem_singleton] at hm
      exact hm ▸ ho
  | ⟨_, some parent, _⟩ =>
      rw [chain, List.mem_cons] at hm
      rcases hm with rfl | hm
      · exact ho
      · rw [chain]
        exact List.mem_cons_of_mem _ (parent.mem_chain_trans hm ho)

theorem mem_ownWords_of_get? (h : l.words.get? name = some word) : name ∈ l.ownWords :=
  List.mem_map.mpr ⟨_, Entries.mem_of_get? h, rfl⟩

theorem resolve_eq_some (h : l.resolve name = some (owner, word)) :
    owner ∈ l.chain ∧ owner.words.get? name = some word := by
  obtain ⟨o, ho, hfound⟩ := List.exists_of_findSome?_eq_some h
  rw [Option.map_eq_some_iff] at hfound
  obtain ⟨_, hget, heq⟩ := hfound
  cases heq
  exact ⟨ho, hget⟩

/-- A lexicon's own words come before those of its ancestors. -/
theorem resolve_own (h : l.words.get? name = some word) : l.resolve name = some (l, word) := by
  rcases l with ⟨_, _ | _, _⟩ <;> simp only [resolve, chain, List.findSome?_cons] <;> rw [h] <;> rfl

theorem CallOnly.plain {body : Body} (h : l.CallOnly) (hword : l.words.get? name = some word)
    (hbody : word.body? = some body) : plainCalls l.hasWord body.calls = true :=
  h _ (Entries.mem_of_get? hword) body hbody

theorem hasWord_of_get? {o : Lexicon} (ho : o ∈ l.chain) (hword : o.words.get? name = some word) :
    l.hasWord name = true := by
  rw [hasWord, resolve, List.findSome?_isSome_iff]
  exact ⟨o, ho, by rw [hword]; rfl⟩

/-- A word that is defined once along a chain has one definition. -/
theorem owner_unique {d : Lexicon} (hwords : (d.chain.flatMap ownWords).Nodup) {o o' : Lexicon} {word' : Word}
    (ho : o ∈ d.chain) (ho' : o' ∈ d.chain) (hword : o.words.get? name = some word)
    (hword' : o'.words.get? name = some word') : o = o' := by
  by_contra hne
  have hsymm : Std.Symm (Function.onFun List.Disjoint ownWords) := ⟨fun _ _ hd _ hmem hmem' => hd hmem' hmem⟩
  exact (List.nodup_flatMap.mp hwords).2.forall ho ho' hne (mem_ownWords_of_get? hword) (mem_ownWords_of_get? hword')

/-- From wherever a word can be found, it is found at its one definition. -/
theorem resolve_of_get? {d : Lexicon} (hwords : (d.chain.flatMap ownWords).Nodup) (hl : l ∈ d.chain)
    (howner : owner ∈ l.chain) (hword : owner.words.get? name = some word) : l.resolve name = some (owner, word) := by
  have hfound := hasWord_of_get? howner hword
  obtain ⟨⟨o, word'⟩, hresolve⟩ := Option.isSome_iff_exists.mp hfound
  obtain ⟨ho, hget⟩ := resolve_eq_some hresolve
  have heq := owner_unique hwords (mem_chain_trans d hl ho) (mem_chain_trans d hl howner) hget hword
  subst heq
  rw [hresolve, Option.some.inj (hget.symm.trans hword)]

namespace Expandable

variable {d : Lexicon} (h : d.Expandable)
include h

theorem resolve_eq (hl : l ∈ d.chain) (howner : owner ∈ l.chain) (hword : owner.words.get? name = some word) :
    l.resolve name = some (owner, word) := resolve_of_get? h.words hl howner hword

theorem name_injective {o o' : Lexicon} (ho : o ∈ d.chain) (ho' : o' ∈ d.chain) (hname : o.name = o'.name) :
    o = o' := List.inj_on_of_nodup_map h.names ho ho' hname

end Expandable

end Lexicon

end Parlance
