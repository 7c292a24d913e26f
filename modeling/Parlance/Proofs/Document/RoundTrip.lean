import Parlance.Proofs.Lexicon.Acts
import Parlance.Document.Basic

/-! Sentences and their documents. A sentence has a document unless some argument has no form in one, and a
document is read unless it names something that the registry does not know; in both directions the first
fault in the order of the document is reported. What has been read is written as it was, and what has been
written is read as a sentence that says the same. -/

namespace Parlance

/-- An argument that holds no others, with the word and the place of the innermost lexem around it. -/
structure Leaf where
  word : String
  index : Nat
  arg : Arg

mutual

/-- The leaves of an argument in the order of the document. -/
def Arg.leaves (word : String) (index : Nat) : Arg → List Leaf
  | .sentence _ s => s.leaves
  | .list _ items => leavesOfItems word index items
  | other => [⟨word, index, other⟩]

def leavesOfItems (word : String) (index : Nat) : List Arg → List Leaf
  | [] => []
  | a :: as => a.leaves word index ++ leavesOfItems word index as

def leavesOfArgs (word : String) (index : Nat) : List Arg → List Leaf
  | [] => []
  | a :: as => a.leaves word index ++ leavesOfArgs word (index + 1) as

def leavesOfLexems : List Lexem → List Leaf
  | [] => []
  | ⟨_, name, args⟩ :: lexems => leavesOfArgs name 0 args ++ leavesOfLexems lexems

def Sentence.leaves : Sentence → List Leaf
  | ⟨_, _, lexems⟩ => leavesOfLexems lexems

end

/-- Whether an argument is a function, a record, a component or a hook. -/
def Arg.isOpaque : Arg → Bool
  | .data _ | .render _ | .handler _ | .callback _ | .component _ | .hook _ => true
  | _ => false

/-- The error that names a leaf as the one without a form. -/
def Leaf.error (leaf : Leaf) : DocumentError := .withoutForm leaf.word leaf.index leaf.arg.kind

/-- The first leaf without a form in a document. -/
def firstOpaque (leaves : List Leaf) : Option Leaf := leaves.find? (·.arg.isOpaque)

/-- What a document asks a registry for. -/
inductive Lookup where
  | lexicon (name : String)
  | word (space name : String)

mutual

/-- What an argument of a document asks for, in the order of the document. -/
def ArgDoc.lookups : ArgDoc → List Lookup
  | .sentence doc => doc.lookups
  | .list items => lookupsOfArgs items
  | _ => []

def lookupsOfArgs : List ArgDoc → List Lookup
  | [] => []
  | d :: ds => d.lookups ++ lookupsOfArgs ds

def lookupsOfLexems : List LexemDoc → List Lookup
  | [] => []
  | ⟨space, name, args⟩ :: docs =>
      [.lexicon space, .word space name] ++ lookupsOfArgs args ++ lookupsOfLexems docs

/-- The lexicon of a sentence, then for every lexem its namespace, its word and its arguments. -/
def SentenceDoc.lookups : SentenceDoc → List Lookup
  | ⟨lexicon, _, lexems⟩ => .lexicon lexicon :: lookupsOfLexems lexems

end

namespace Lookup

/-- Whether a registry has what is asked for. A word may be defined by an ancestor of the lexicon. -/
def met (registry : Registry) : Lookup → Bool
  | .lexicon name => registry.contains name
  | .word space name =>
      (registry.get? space).any fun lexicon => lexicon.chain.any fun owner => name ∈ owner.ownWords

def error : Lookup → DocumentError
  | .lexicon name => .vocabulary (.unknownLexicon name)
  | .word space name => .vocabulary (.unknownWord space name)

end Lookup

/-- The first thing asked for that a registry does not have. -/
def Registry.firstMissing (registry : Registry) (lookups : List Lookup) : Option Lookup :=
  lookups.find? fun q => !q.met registry

mutual

/-- Whether two arguments say the same: they differ in nothing but identities, and in the lexicons of
sentences only as far as those have the same name. -/
def Arg.Agrees : Arg → Arg → Prop
  | .null, .null => True
  | .bool a, .bool b => a = b
  | .number a, .number b => a.bits = b.bits
  | .str a, .str b => a = b
  | .sentence _ s, .sentence _ t => s.Agrees t
  | .list _ as, .list _ bs => ArgsAgree as bs
  | _, _ => False

def ArgsAgree : List Arg → List Arg → Prop
  | [], [] => True
  | a :: as, b :: bs => a.Agrees b ∧ ArgsAgree as bs
  | _, _ => False

def LexemsAgree : List Lexem → List Lexem → Prop
  | [], [] => True
  | ⟨space, name, args⟩ :: ls, ⟨space', name', args'⟩ :: ls' =>
      space = space' ∧ name = name' ∧ ArgsAgree args args' ∧ LexemsAgree ls ls'
  | _, _ => False

def Sentence.Agrees : Sentence → Sentence → Prop
  | ⟨lexicon, level, lexems⟩, ⟨lexicon', level', lexems'⟩ =>
      lexicon.name = lexicon'.name ∧ level = level' ∧ LexemsAgree lexems lexems'

end

/-- The registries that come about by registering lexicons. -/
inductive Registry.Built : Registry → Prop
  | empty : Built .empty
  | register {r : Registry} (lexicon : Lexicon) (h : Built r) : Built (r.register lexicon)
  | registerWithAncestors {r : Registry} (lexicon : Lexicon) (h : Built r) :
      Built (r.registerWithAncestors lexicon)

namespace Registry

/-- Every lexicon stands under its own name. -/
def ByName (r : Registry) : Prop := ∀ name lexicon, r.get? name = some lexicon → lexicon.name = name

theorem ByName.register {r : Registry} (h : r.ByName) (lexicon : Lexicon) : (r.register lexicon).ByName := by
  intro name found hget
  rw [get?, Registry.register, Entries.get?_put] at hget
  split at hget
  · next heq =>
    cases hget
    exact heq.symm
  · exact h name found hget

theorem ByName.registerWithAncestors {r : Registry} (h : r.ByName) (lexicon : Lexicon) :
    (r.registerWithAncestors lexicon).ByName := by
  unfold Registry.registerWithAncestors
  generalize lexicon.chain = ancestors
  induction ancestors generalizing r with
  | nil => exact h
  | cons ancestor ancestors ih =>
      rw [List.foldl_cons]
      split
      · exact ih h
      · exact ih (h.register ancestor)

theorem Built.byName {r : Registry} (h : r.Built) : r.ByName := by
  induction h with
  | empty => exact fun _ _ hget => nomatch hget
  | register lexicon _ ih => exact ih.register lexicon
  | registerWithAncestors lexicon _ ih => exact ih.registerWithAncestors lexicon

end Registry

section Writing

/-- A step of writing succeeds if no leaf has been found without a form, and otherwise reports that leaf. -/
def Writes {α : Type} (r : Except DocumentError α) : Option Leaf → Prop
  | none => ∃ x, r = .ok x
  | some leaf => r = .error leaf.error

theorem Writes.bind {α β : Type} {r : Except DocumentError α} {g : α → Except DocumentError β}
    {found found' : Option Leaf} (h : Writes r found) (h' : ∀ x, Writes (g x) found') :
    Writes (r >>= g) (found.or found') := by
  cases found with
  | some leaf =>
      rw [show r = _ from h]
      rfl
  | none =>
      obtain ⟨x, rfl⟩ := h
      exact h' x

theorem Writes.map {α β : Type} {r : Except DocumentError α} {found : Option Leaf} (h : Writes r found)
    (f : α → β) : Writes (r >>= fun x => pure (f x)) found := by
  have hpure : ∀ x, Writes (pure (f x) : Except DocumentError β) none := fun x => ⟨f x, rfl⟩
  simpa using h.bind hpure

theorem firstOpaque_append (ls ls' : List Leaf) :
    firstOpaque (ls ++ ls') = (firstOpaque ls).or (firstOpaque ls') := List.find?_append

mutual

theorem Arg.toDoc_writes (word : String) (index : Nat) :
    ∀ a : Arg, Writes (a.toDoc word index) (firstOpaque (a.leaves word index))
  | .sentence _ s => s.toDoc_writes.map _
  | .list _ items => (itemsToDocs_writes word index items).map _
  | .null | .bool _ | .number _ | .str _ => ⟨_, rfl⟩
  | .data _ | .render _ | .handler _ | .callback _ | .component _ | .hook _ => rfl

theorem itemsToDocs_writes (word : String) (index : Nat) :
    ∀ as : List Arg, Writes (itemsToDocs word index as) (firstOpaque (leavesOfItems word index as))
  | [] => ⟨_, rfl⟩
  | a :: as => by
      rw [leavesOfItems, firstOpaque_append, itemsToDocs]
      exact (a.toDoc_writes word index).bind fun _ => (itemsToDocs_writes word index as).map _

theorem argsToDocs_writes (word : String) :
    ∀ (index : Nat) (as : List Arg), Writes (argsToDocs word index as) (firstOpaque (leavesOfArgs word index as))
  | _, [] => ⟨_, rfl⟩
  | index, a :: as => by
      rw [leavesOfArgs, firstOpaque_append, argsToDocs]
      exact (a.toDoc_writes word index).bind fun _ => (argsToDocs_writes word (index + 1) as).map _

theorem lexemsToDocs_writes : ∀ ls : List Lexem, Writes (lexemsToDocs ls) (firstOpaque (leavesOfLexems ls))
  | [] => ⟨_, rfl⟩
  | ⟨_, name, args⟩ :: ls => by
      rw [leavesOfLexems, firstOpaque_append, lexemsToDocs]
      exact (argsToDocs_writes name 0 args).bind fun _ => (lexemsToDocs_writes ls).map _

/-- A sentence is written unless a leaf has no form, and then the first of these is reported. -/
theorem Sentence.toDoc_writes : ∀ s : Sentence, Writes s.toDoc (firstOpaque s.leaves)
  | ⟨_, _, lexems⟩ => (lexemsToDocs_writes lexems).map _

end

end Writing

section Reading

variable {ω : Type} (i : Interpreter ω) (registry : Registry)

/-- A step of reading succeeds if nothing is missing from the registry, and otherwise reports what is. -/
def Reads {α : Type} (m : Attempt DocumentError ω α) : Option Lookup → Prop
  | none => ∀ w, ∃ x w', m w = .ok x w'
  | some q => ∀ w, ∃ w', m w = .error (.error q.error) w'

theorem Attempt.bind_run {ε α β : Type} (m : Attempt ε ω α) (g : α → Attempt ε ω β) (w : ω) :
    (m >>= g) w = match m w with
      | .ok x w' => g x w'
      | .error e w' => .error e w' := by
  change EStateM.bind m g w = _
  unfold EStateM.bind
  cases m w <;> rfl

theorem Reads.bind {α β : Type} {m : Attempt DocumentError ω α} {g : α → Attempt DocumentError ω β}
    {missing missing' : Option Lookup} (h : Reads m missing) (h' : ∀ x, Reads (g x) missing') :
    Reads (m >>= g) (missing.or missing') := by
  cases missing with
  | some q =>
      intro w
      obtain ⟨w', hw⟩ := h w
      exact ⟨w', by rw [Attempt.bind_run, hw]⟩
  | none =>
      cases missing' with
      | none =>
          intro w
          obtain ⟨x, w₁, hw⟩ := h w
          rw [Attempt.bind_run, hw]
          exact h' x w₁
      | some q =>
          intro w
          obtain ⟨x, w₁, hw⟩ := h w
          rw [Attempt.bind_run, hw]
          exact h' x w₁

theorem Reads.pure {α : Type} (x : α) : Reads (pure x : Attempt DocumentError ω α) none :=
  fun w => ⟨x, w, rfl⟩

theorem Reads.map {α β : Type} {m : Attempt DocumentError ω α} {missing : Option Lookup} (h : Reads m missing)
    (f : α → β) : Reads (m >>= fun x => Pure.pure (f x)) missing := by
  simpa using h.bind fun x => Reads.pure (f x)

/-- A new identity can always be drawn. -/
def Interpreter.Draws : Prop := ∀ w, ∃ identity w', i.fresh w = .ok identity w'

variable {i}

theorem Interpreter.Draws.reads (hdraws : i.Draws) : Reads (.ofAct i.fresh : Attempt DocumentError ω Identity) none := by
  intro w
  obtain ⟨identity, w', hw⟩ := hdraws w
  exact ⟨identity, w', by rw [Attempt.ofAct, hw]⟩

theorem Lexicon.hasWord_eq (lexicon : Lexicon) (name : String) :
    lexicon.hasWord name = lexicon.chain.any fun owner => name ∈ owner.ownWords := by
  have hown : ∀ owner : Lexicon, (owner.words.get? name).isSome = decide (name ∈ owner.ownWords) := by
    intro owner
    rw [ownWords, Entries.names]
    induction owner.words with
    | nil => rfl
    | cons entry entries ih =>
        rw [Entries.get?]
        split
        · next heq => simp [heq]
        · next hne => simp [ih, Ne.symm hne]
  rw [hasWord, resolve]
  induction lexicon.chain with
  | nil => rfl
  | cons owner owners ih =>
      rw [List.findSome?_cons, List.any_cons, ← hown owner]
      cases owner.words.get? name with
      | none => exact ih
      | some word => rfl

variable {registry}

theorem Registry.firstMissing_append (qs qs' : List Lookup) :
    registry.firstMissing (qs ++ qs') = (registry.firstMissing qs).or (registry.firstMissing qs') :=
  List.find?_append

theorem Registry.firstMissing_cons (q : Lookup) (qs : List Lookup) :
    registry.firstMissing (q :: qs) = if q.met registry then registry.firstMissing qs else some q := by
  rw [firstMissing, List.find?_cons]
  cases q.met registry <;> rfl

mutual

theorem ArgDoc.toArg_reads (hdraws : i.Draws) :
    ∀ d : ArgDoc, Reads (d.toArg i registry) (registry.firstMissing d.lookups)
  | .sentence doc => by
      have hidentity : ∀ s : Sentence, Reads (.ofAct i.fresh >>= fun identity => pure (Arg.sentence identity s)) none :=
        fun s => hdraws.reads.map _
      simpa [ArgDoc.toArg, ArgDoc.lookups] using (doc.toSentence_reads hdraws).bind hidentity
  | .list items => by
      have hidentity : ∀ as : List Arg, Reads (.ofAct i.fresh >>= fun identity => pure (Arg.list identity as)) none :=
        fun as => hdraws.reads.map _
      simpa [ArgDoc.toArg, ArgDoc.lookups] using (docsToArgs_reads hdraws items).bind hidentity
  | .null | .bool _ | .number _ | .str _ => Reads.pure _

theorem docsToArgs_reads (hdraws : i.Draws) :
    ∀ ds : List ArgDoc, Reads (docsToArgs i registry ds) (registry.firstMissing (lookupsOfArgs ds))
  | [] => Reads.pure _
  | d :: ds => by
      rw [lookupsOfArgs, Registry.firstMissing_append, docsToArgs]
      exact (d.toArg_reads hdraws).bind fun _ => (docsToArgs_reads hdraws ds).map _

theorem docsToLexems_reads (hdraws : i.Draws) :
    ∀ docs : List LexemDoc, Reads (docsToLexems i registry docs) (registry.firstMissing (lookupsOfLexems docs))
  | [] => Reads.pure _
  | ⟨space, name, args⟩ :: docs => by
      rw [lookupsOfLexems, List.append_assoc, List.cons_append, Registry.firstMissing_cons, List.cons_append,
        List.nil_append, Registry.firstMissing_cons, Registry.firstMissing_append, docsToLexems, Lookup.met,
        Registry.contains, Lookup.met]
      cases hspace : registry.get? space with
      | none => exact fun w => ⟨w, rfl⟩
      | some lexicon =>
          simp only [Option.isSome_some, if_true, Option.any_some, ← Lexicon.hasWord_eq]
          cases hword : lexicon.hasWord name with
          | false => exact fun w => ⟨w, rfl⟩
          | true =>
              simp only [if_true]
              exact (docsToArgs_reads hdraws args).bind fun _ => (docsToLexems_reads hdraws docs).map _

/-- A document is read unless the registry lacks something, and then the first such thing is reported. -/
theorem SentenceDoc.toSentence_reads (hdraws : i.Draws) :
    ∀ doc : SentenceDoc, Reads (doc.toSentence i registry) (registry.firstMissing doc.lookups)
  | ⟨lexiconName, level, lexems⟩ => by
      rw [SentenceDoc.lookups, Registry.firstMissing_cons, SentenceDoc.toSentence, Lookup.met, Registry.contains]
      cases hlexicon : registry.get? lexiconName with
      | none => exact fun w => ⟨w, rfl⟩
      | some lexicon => exact (docsToLexems_reads hdraws lexems).map _

end

end Reading

section Reproducing

variable {ω : Type} {i : Interpreter ω} {registry : Registry}

mutual

theorem ArgDoc.toDoc_toArg (hnamed : registry.ByName) (word : String) (index : Nat) :
    ∀ {d : ArgDoc} {a : Arg} {w w' : ω}, d.toArg i registry w = .ok a w' → a.toDoc word index = .ok d
  | .sentence doc, _, _, _, h => by
      simp only [ArgDoc.toArg, Act.bind_eq_ok, Act.pure_eq_ok] at h
      obtain ⟨s, _, hs, _, _, _, rfl, rfl⟩ := h
      rw [Arg.toDoc, doc.toDoc_toSentence hnamed hs]
      rfl
  | .list items, _, _, _, h => by
      simp only [ArgDoc.toArg, Act.bind_eq_ok, Act.pure_eq_ok] at h
      obtain ⟨as, _, has, _, _, _, rfl, rfl⟩ := h
      rw [Arg.toDoc, itemsToDocs_docsToArgs hnamed word index has]
      rfl
  | .null, _, _, _, h | .bool _, _, _, _, h | .number _, _, _, _, h | .str _, _, _, _, h => by
      obtain ⟨rfl, -⟩ := Act.pure_eq_ok.mp h
      rfl

theorem itemsToDocs_docsToArgs (hnamed : registry.ByName) (word : String) (index : Nat) :
    ∀ {ds : List ArgDoc} {as : List Arg} {w w' : ω}, docsToArgs i registry ds w = .ok as w' →
      itemsToDocs word index as = .ok ds
  | [], _, _, _, h => by
      obtain ⟨rfl, -⟩ := Act.pure_eq_ok.mp h
      rfl
  | d :: ds, _, _, _, h => by
      simp only [docsToArgs, Act.bind_eq_ok, Act.pure_eq_ok] at h
      obtain ⟨a, _, ha, as, _, has, rfl, rfl⟩ := h
      rw [itemsToDocs, d.toDoc_toArg hnamed word index ha, itemsToDocs_docsToArgs hnamed word index has]
      rfl

theorem argsToDocs_docsToArgs (hnamed : registry.ByName) (word : String) :
    ∀ (index : Nat) {ds : List ArgDoc} {as : List Arg} {w w' : ω}, docsToArgs i registry ds w = .ok as w' →
      argsToDocs word index as = .ok ds
  | _, [], _, _, _, h => by
      obtain ⟨rfl, -⟩ := Act.pure_eq_ok.mp h
      rfl
  | index, d :: ds, _, _, _, h => by
      simp only [docsToArgs, Act.bind_eq_ok, Act.pure_eq_ok] at h
      obtain ⟨a, _, ha, as, _, has, rfl, rfl⟩ := h
      rw [argsToDocs, d.toDoc_toArg hnamed word index ha, argsToDocs_docsToArgs hnamed word (index + 1) has]
      rfl

theorem lexemsToDocs_docsToLexems (hnamed : registry.ByName) :
    ∀ {docs : List LexemDoc} {ls : List Lexem} {w w' : ω}, docsToLexems i registry docs w = .ok ls w' →
      lexemsToDocs ls = .ok docs
  | [], _, _, _, h => by
      obtain ⟨rfl, -⟩ := Act.pure_eq_ok.mp h
      rfl
  | ⟨space, name, args⟩ :: docs, _, _, _, h => by
      rw [docsToLexems] at h
      cases hspace : registry.get? space with
      | none =>
          rw [hspace] at h
          cases h
      | some lexicon =>
          cases hword : lexicon.hasWord name with
          | false =>
              simp only [hspace, hword] at h
              cases h
          | true =>
              simp only [hspace, hword, if_true, Act.bind_eq_ok, Act.pure_eq_ok] at h
              obtain ⟨as, _, has, ls, _, hls, rfl, rfl⟩ := h
              rw [lexemsToDocs, argsToDocs_docsToArgs hnamed name 0 has, lexemsToDocs_docsToLexems hnamed hls]
              rfl

/-- A sentence that has been read is written as the document that it was read from. -/
theorem SentenceDoc.toDoc_toSentence (hnamed : registry.ByName) :
    ∀ {doc : SentenceDoc} {s : Sentence} {w w' : ω}, doc.toSentence i registry w = .ok s w' → s.toDoc = .ok doc
  | ⟨lexiconName, level, lexems⟩, _, _, _, h => by
      rw [SentenceDoc.toSentence] at h
      cases hlexicon : registry.get? lexiconName with
      | none =>
          rw [hlexicon] at h
          cases h
      | some lexicon =>
          simp only [hlexicon, Act.bind_eq_ok, Act.pure_eq_ok] at h
          obtain ⟨ls, _, hls, rfl, rfl⟩ := h
          rw [Sentence.toDoc, lexemsToDocs_docsToLexems hnamed hls, hnamed _ _ hlexicon]
          rfl

end

theorem Writes.bind_eq_ok {α β : Type} {r : Except DocumentError α} {g : α → Except DocumentError β} {y : β} :
    (r >>= g) = .ok y ↔ ∃ x, r = .ok x ∧ g x = .ok y := by
  cases r with
  | error e =>
      constructor
      · intro h
        cases h
      · rintro ⟨_, ⟨⟩, -⟩
  | ok x =>
      constructor
      · exact fun h => ⟨x, rfl, h⟩
      · rintro ⟨_, ⟨⟩, h⟩
        exact h

theorem Writes.pure_eq_ok {α : Type} {x y : α} : (pure x : Except DocumentError α) = .ok y ↔ x = y := by
  change Except.ok x = .ok y ↔ _
  simp

theorem Arg.toDoc_sentence_eq_ok {word : String} {index : Nat} {identity : Identity} {s : Sentence} {d : ArgDoc} :
    (Arg.sentence identity s).toDoc word index = .ok d ↔ ∃ doc, s.toDoc = .ok doc ∧ .sentence doc = d := by
  rw [Arg.toDoc, Writes.bind_eq_ok]
  exact exists_congr fun _ => and_congr_right fun _ => Writes.pure_eq_ok

theorem Arg.toDoc_list_eq_ok {word : String} {index : Nat} {identity : Identity} {items : List Arg} {d : ArgDoc} :
    (Arg.list identity items).toDoc word index = .ok d ↔
      ∃ ds, itemsToDocs word index items = .ok ds ∧ .list ds = d := by
  rw [Arg.toDoc, Writes.bind_eq_ok]
  exact exists_congr fun _ => and_congr_right fun _ => Writes.pure_eq_ok

mutual

theorem Arg.agrees_of_toDoc {word word' : String} {index index' : Nat} :
    ∀ {a a' : Arg} {d : ArgDoc}, a.toDoc word index = .ok d → a'.toDoc word' index' = .ok d → a.Agrees a'
  | .sentence _ s, a', _, h, h' => by
      obtain ⟨doc, hdoc, rfl⟩ := Arg.toDoc_sentence_eq_ok.mp h
      cases a' with
      | sentence identity' s' =>
          obtain ⟨_, hdoc', heq⟩ := Arg.toDoc_sentence_eq_ok.mp h'
          cases heq
          rw [Arg.Agrees]
          exact Sentence.agrees_of_toDoc hdoc hdoc'
      | list => obtain ⟨_, _, heq⟩ := Arg.toDoc_list_eq_ok.mp h'; cases heq
      | _ => cases h'
  | .list _ items, a', _, h, h' => by
      obtain ⟨ds, hds, rfl⟩ := Arg.toDoc_list_eq_ok.mp h
      cases a' with
      | list identity' items' =>
          obtain ⟨_, hds', heq⟩ := Arg.toDoc_list_eq_ok.mp h'
          cases heq
          rw [Arg.Agrees]
          exact argsAgree_of_itemsToDocs hds hds'
      | sentence => obtain ⟨_, _, heq⟩ := Arg.toDoc_sentence_eq_ok.mp h'; cases heq
      | _ => cases h'
  | .null, a', _, h, h' | .bool _, a', _, h, h' | .number _, a', _, h, h' | .str _, a', _, h, h' => by
      cases h
      cases a' with
      | sentence => obtain ⟨_, _, heq⟩ := Arg.toDoc_sentence_eq_ok.mp h'; cases heq
      | list => obtain ⟨_, _, heq⟩ := Arg.toDoc_list_eq_ok.mp h'; cases heq
      | _ => cases h' <;> simp [Arg.Agrees]
termination_by structural a => a

theorem argsAgree_of_itemsToDocs {word word' : String} {index index' : Nat} :
    ∀ {as as' : List Arg} {ds : List ArgDoc}, itemsToDocs word index as = .ok ds →
      itemsToDocs word' index' as' = .ok ds → ArgsAgree as as'
  | [], as', _, h, h' => by
      cases h
      cases as' with
      | nil => simp [ArgsAgree]
      | cons a' as' => simp only [itemsToDocs, Writes.bind_eq_ok, Writes.pure_eq_ok, reduceCtorEq, and_false,
          exists_false] at h'
  | a :: as, as', _, h, h' => by
      simp only [itemsToDocs, Writes.bind_eq_ok, Writes.pure_eq_ok] at h
      obtain ⟨d, ha, ds, has, rfl⟩ := h
      cases as' with
      | nil => cases h'
      | cons a' as' =>
          simp only [itemsToDocs, Writes.bind_eq_ok, Writes.pure_eq_ok, List.cons.injEq] at h'
          obtain ⟨_, ha', _, has', rfl, rfl⟩ := h'
          rw [ArgsAgree]
          exact ⟨Arg.agrees_of_toDoc ha ha', argsAgree_of_itemsToDocs has has'⟩
termination_by structural as => as

theorem argsAgree_of_argsToDocs {word word' : String} :
    ∀ {index index' : Nat} {as as' : List Arg} {ds : List ArgDoc}, argsToDocs word index as = .ok ds →
      argsToDocs word' index' as' = .ok ds → ArgsAgree as as'
  | _, _, [], as', _, h, h' => by
      cases h
      cases as' with
      | nil => simp [ArgsAgree]
      | cons a' as' => simp only [argsToDocs, Writes.bind_eq_ok, Writes.pure_eq_ok, reduceCtorEq, and_false,
          exists_false] at h'
  | _, _, a :: as, as', _, h, h' => by
      simp only [argsToDocs, Writes.bind_eq_ok, Writes.pure_eq_ok] at h
      obtain ⟨d, ha, ds, has, rfl⟩ := h
      cases as' with
      | nil => cases h'
      | cons a' as' =>
          simp only [argsToDocs, Writes.bind_eq_ok, Writes.pure_eq_ok, List.cons.injEq] at h'
          obtain ⟨_, ha', _, has', rfl, rfl⟩ := h'
          rw [ArgsAgree]
          exact ⟨Arg.agrees_of_toDoc ha ha', argsAgree_of_argsToDocs has has'⟩
termination_by structural _ _ as => as

theorem lexemsAgree_of_lexemsToDocs :
    ∀ {ls ls' : List Lexem} {docs : List LexemDoc}, lexemsToDocs ls = .ok docs → lexemsToDocs ls' = .ok docs →
      LexemsAgree ls ls'
  | [], ls', _, h, h' => by
      cases h
      rcases ls' with _ | ⟨⟨space', name', args'⟩, ls'⟩
      · simp [LexemsAgree]
      · simp only [lexemsToDocs, Writes.bind_eq_ok, Writes.pure_eq_ok, reduceCtorEq, and_false,
          exists_false] at h'
  | ⟨space, name, args⟩ :: ls, ls', _, h, h' => by
      simp only [lexemsToDocs, Writes.bind_eq_ok, Writes.pure_eq_ok] at h
      obtain ⟨ds, hargs, docs, hls, rfl⟩ := h
      rcases ls' with _ | ⟨⟨space', name', args'⟩, ls'⟩
      · cases h'
      · simp only [lexemsToDocs, Writes.bind_eq_ok, Writes.pure_eq_ok, List.cons.injEq, LexemDoc.mk.injEq] at h'
        obtain ⟨_, hargs', _, hls', ⟨rfl, rfl, rfl⟩, rfl⟩ := h'
        rw [LexemsAgree]
        exact ⟨rfl, rfl, argsAgree_of_argsToDocs hargs hargs', lexemsAgree_of_lexemsToDocs hls hls'⟩
termination_by structural ls => ls

/-- Sentences with the same document say the same. -/
theorem Sentence.agrees_of_toDoc :
    ∀ {s s' : Sentence} {doc : SentenceDoc}, s.toDoc = .ok doc → s'.toDoc = .ok doc → s.Agrees s'
  | ⟨lexicon, level, lexems⟩, ⟨lexicon', level', lexems'⟩, _, h, h' => by
      simp only [Sentence.toDoc, Writes.bind_eq_ok, Writes.pure_eq_ok] at h h'
      obtain ⟨docs, hls, rfl⟩ := h
      simp only [SentenceDoc.mk.injEq] at h'
      obtain ⟨_, hls', hname, hlevel, rfl⟩ := h'
      rw [Sentence.Agrees]
      exact ⟨hname.symm, hlevel.symm, lexemsAgree_of_lexemsToDocs hls hls'⟩
termination_by structural s => s

end

end Reproducing

/-- An element of a list that has a property, after others that do not have it. -/
def IsFirst {α : Type} (p : α → Bool) (x : α) (xs : List α) : Prop :=
  p x = true ∧ ∃ before after, xs = before ++ x :: after ∧ ∀ y ∈ before, p y = false

theorem find?_eq_some_iff_isFirst {α : Type} {p : α → Bool} {x : α} {xs : List α} :
    xs.find? p = some x ↔ IsFirst p x xs := by
  simp [List.find?_eq_some_iff_append, IsFirst]

theorem Writes.ok_iff {α : Type} {r : Except DocumentError α} {leaves : List Leaf}
    (h : Writes r (firstOpaque leaves)) : (∃ x, r = .ok x) ↔ ∀ leaf ∈ leaves, leaf.arg.isOpaque = false := by
  cases hfound : firstOpaque leaves with
  | none =>
      rw [hfound] at h
      exact iff_of_true h (by simpa [firstOpaque] using hfound)
  | some leaf =>
      rw [hfound] at h
      have hmem := List.mem_of_find?_eq_some hfound
      have hopaque := List.find?_some hfound
      refine iff_of_false (fun ⟨_, hx⟩ => ?_) fun hall => ?_
      · rw [show r = .error leaf.error from h] at hx
        cases hx
      · rw [hall leaf hmem] at hopaque
        cases hopaque

theorem Writes.error_iff {α : Type} {r : Except DocumentError α} {leaves : List Leaf}
    (h : Writes r (firstOpaque leaves)) (error : DocumentError) :
    r = .error error ↔ ∃ leaf, IsFirst (·.arg.isOpaque) leaf leaves ∧ error = leaf.error := by
  simp only [← find?_eq_some_iff_isFirst]
  change _ ↔ ∃ leaf, firstOpaque leaves = some leaf ∧ _
  cases hfound : firstOpaque leaves with
  | none =>
      rw [hfound] at h
      obtain ⟨x, rfl⟩ := h
      simp
  | some leaf =>
      rw [hfound] at h
      rw [show r = .error leaf.error from h, Except.error.injEq]
      simp [eq_comm]

section Reports

variable {ω α : Type} {registry : Registry} {m : Attempt DocumentError ω α} {lookups : List Lookup}

theorem Reads.ok_iff (h : Reads m (registry.firstMissing lookups)) (w : ω) :
    (∃ x w', m w = .ok x w') ↔ ∀ q ∈ lookups, q.met registry = true := by
  cases hfound : registry.firstMissing lookups with
  | none =>
      rw [hfound] at h
      exact iff_of_true (h w) (by simpa [Registry.firstMissing] using hfound)
  | some q =>
      rw [hfound] at h
      have hmem := List.mem_of_find?_eq_some hfound
      have hmissing := List.find?_some hfound
      refine iff_of_false (fun ⟨_, _, hx⟩ => ?_) fun hall => ?_
      · obtain ⟨_, hw⟩ := h w
        rw [hw] at hx
        cases hx
      · rw [hall q hmem] at hmissing
        cases hmissing

theorem Reads.error_iff (h : Reads m (registry.firstMissing lookups)) (w : ω) (halt : Halt DocumentError) :
    (∃ w', m w = .error halt w') ↔ ∃ q, IsFirst (fun q => !q.met registry) q lookups ∧ halt = .error q.error := by
  simp only [← find?_eq_some_iff_isFirst]
  change _ ↔ ∃ q, registry.firstMissing lookups = some q ∧ _
  cases hfound : registry.firstMissing lookups with
  | none =>
      rw [hfound] at h
      obtain ⟨x, w', hw⟩ := h w
      simp [hw]
  | some q =>
      rw [hfound] at h
      obtain ⟨w', hw⟩ := h w
      simp [hw, eq_comm]

end Reports

/-- A sentence is written exactly if no leaf is opaque, and otherwise the first opaque leaf is reported, with the
word and the index of the lexem that it belongs to. A document is read exactly if the registry has everything
that it asks for, and otherwise the first missing thing is reported. A sentence that has been read is written as
the document that it was read from, and a document that has been written is read as a sentence that says the
same. -/
theorem documents_round_trip {ω : Type} (i : Interpreter ω) (registry : Registry) (hdraws : i.Draws)
    (hbuilt : registry.Built) :
    (∀ s : Sentence,
      ((∃ doc, s.toDoc = .ok doc) ↔ ∀ leaf ∈ s.leaves, leaf.arg.isOpaque = false) ∧
      ∀ error, s.toDoc = .error error ↔ ∃ leaf, IsFirst (·.arg.isOpaque) leaf s.leaves ∧
        error = .withoutForm leaf.word leaf.index leaf.arg.kind) ∧
    (∀ (doc : SentenceDoc) (w : ω),
      ((∃ s w', doc.toSentence i registry w = .ok s w') ↔ ∀ q ∈ doc.lookups, q.met registry = true) ∧
      ∀ halt, (∃ w', doc.toSentence i registry w = .error halt w') ↔
        ∃ q, IsFirst (fun q => !q.met registry) q doc.lookups ∧ halt = .error q.error) ∧
    (∀ (doc : SentenceDoc) (w w' : ω) (s : Sentence), doc.toSentence i registry w = .ok s w' →
      s.toDoc = .ok doc) ∧
    ∀ (s s' : Sentence) (doc : SentenceDoc) (w w' : ω), s.toDoc = .ok doc →
      doc.toSentence i registry w = .ok s' w' → s'.Agrees s := by
  have hnamed := hbuilt.byName
  refine ⟨fun s => ⟨s.toDoc_writes.ok_iff, s.toDoc_writes.error_iff⟩, fun doc w => ?_,
    fun doc w w' s h => doc.toDoc_toSentence hnamed h,
    fun s s' doc w w' h h' => Sentence.agrees_of_toDoc (doc.toDoc_toSentence hnamed h') h⟩
  have hreads : Reads (doc.toSentence i registry) (registry.firstMissing doc.lookups) := doc.toSentence_reads hdraws
  exact ⟨hreads.ok_iff w, hreads.error_iff w⟩

/-- An interpreter that counts the identities it has given out and leaves sentences as they are. -/
def Interpreter.counting : Interpreter Nat where
  fresh w := .ok ⟨w⟩ (w + 1)
  run _ _ s _ := pure s

/-- A lexicon with a parent, both of them registered. -/
def Lexicon.noted : Lexicon := (Lexicon.new "notes" (some ((Lexicon.new "base" none).addAtoms ["mark"]))).addAtoms ["note"]

/-- A document with an inherited word inside a list, and a sentence with a handler in the same place. -/
theorem documents_round_trip_noted :
    Interpreter.counting.Draws ∧ (Registry.empty.registerWithAncestors Lexicon.noted).Built ∧
    (∃ s w', SentenceDoc.toSentence Interpreter.counting (Registry.empty.registerWithAncestors Lexicon.noted)
      ⟨"notes", .firstLevel, [⟨"notes", "note",
        [.str "a", .list [.sentence ⟨"base", .atomic, [⟨"notes", "mark", [.number ⟨1⟩]⟩]⟩]]⟩]⟩ 0 = .ok s w') ∧
    Sentence.toDoc ⟨Lexicon.noted, .firstLevel, [⟨"notes", "note",
      [.str "a", .list ⟨0⟩ [.null, .handler ⟨1⟩, .data ⟨2⟩]]⟩]⟩ = .error (.withoutForm "note" 1 "handler") := by
  have hdraws : Interpreter.counting.Draws := fun w => ⟨⟨w⟩, w + 1, rfl⟩
  have hbuilt : (Registry.empty.registerWithAncestors Lexicon.noted).Built := .registerWithAncestors _ .empty
  obtain ⟨hwrites, hreads, -, -⟩ := documents_round_trip Interpreter.counting _ hdraws hbuilt
  refine ⟨hdraws, hbuilt, (hreads _ 0).1.mpr (by decide), ((hwrites _).2 _).mpr ⟨⟨"note", 1, .handler ⟨1⟩⟩, ?_, rfl⟩⟩
  exact ⟨rfl, [⟨"note", 0, .str "a"⟩, ⟨"note", 1, .null⟩], [⟨"note", 1, .data ⟨2⟩⟩], rfl, by simp [Arg.isOpaque]⟩

end Parlance
