import Parlance.Proofs.Document.RoundTrip
import Parlance.Proofs.Engine.Sparing
import Parlance.Proofs.Engine.Tending
import Parlance.Proofs.Html.Developments

/-! Documents of the built-in vocabulary. Whatever words they use and however these are nested, rendering the first and
diffing every next one comes to an end: compounds develop in layers, and a reference hands over fewer arguments each
time that it names another reference. So no limit on the depth is reached, nothing breaks off, and the errors are
mistakes in the documents. On the way the passes keep to nodes that are there. -/

namespace Parlance

open Engine Script

/-- An attempt ends in an error that a pass takes for a mistake in the sentences. -/
def Blames {ε : Type} (cause : ε → PassError) (halt : Halt ε) : Prop := ∃ err, halt = .error err ∧ ¬ (cause err).Internal

/-- What an attempt comes to, a pass comes to. -/
theorem Fares.attempt {ω α ε : Type} {P : α → Prop} {action : Attempt ε ω α} {cause : ε → PassError}
    (h : Yields (Blames cause) P action) : Fares P (Pass.attempt cause action) (Pass.attempt cause action) := by
  refine ⟨rfl, fun σ => ?_⟩
  obtain ⟨x, w, hrun, hx⟩ | ⟨halt, w, hrun, hblames⟩ := h σ.world
  · exact .inl ⟨x, { σ with world := w }, by rw [Pass.attempt, hrun], hx⟩
  · obtain ⟨err, rfl, hmistake⟩ := hblames
    exact .inr ⟨.error (cause err), { σ with world := w }, by rw [Pass.attempt, hrun], hmistake⟩

namespace Html

section Ends

variable (b b' : Behaviour World) (e : Engine) (n : Nat)

/-- From some depth on a sentence comes to an end, however deep one may go and whoever runs the functions. -/
def SentenceEnds (s : Sentence) : Prop :=
  ∀ depth depth', n ≤ depth → n ≤ depth' → s.Finishes (.within b e depth) (.within b' e depth') e

def LexemEnds (lexem : Lexem) : Prop :=
  ∀ depth depth', n ≤ depth → n ≤ depth' → lexem.Finishes (.within b e depth) (.within b' e depth') e

end Ends

section Words

variable {b b' : Behaviour World} {e : Engine} {n m : Nat} {name : String} {args : List Arg} {lexem : Lexem}

theorem SentenceEnds.mono {s : Sentence} (h : SentenceEnds b b' e n s) (hle : n ≤ m) : SentenceEnds b b' e m s :=
  fun depth depth' hdepth hdepth' => h depth depth' (Nat.le_trans hle hdepth) (Nat.le_trans hle hdepth')

theorem LexemEnds.mono (h : LexemEnds b b' e n lexem) (hle : n ≤ m) : LexemEnds b b' e m lexem :=
  fun depth depth' hdepth hdepth' => h depth depth' (Nat.le_trans hle hdepth) (Nat.le_trans hle hdepth')

theorem sentence_ends {s : Sentence} (h : ∀ lexem ∈ s.lexems, LexemEnds b b' e n lexem) :
    SentenceEnds b b' e (n + 1) s := by
  intro depth depth' hdepth hdepth'
  obtain ⟨depth, rfl⟩ := Nat.exists_eq_add_of_le' hdepth
  obtain ⟨depth', rfl⟩ := Nat.exists_eq_add_of_le' hdepth'
  have hlexems : ∀ lexem ∈ s.lexems, lexem.Finishes (.within b e (depth + n)) (.within b' e (depth' + n)) e :=
    fun lexem hlexem => h lexem hlexem _ _ (Nat.le_add_left _ _) (Nat.le_add_left _ _)
  exact phrase_finishes hlexems

end Words

/-- An engine that interprets the built-in vocabulary and nothing else. -/
def Interprets (e : Engine) : Prop := e.targets = ⟨[(space, lexicon)]⟩

/-- Every word that is no compound is the name of an instruction, and `switchUse` is the only one of its instruction. -/
theorem words_named : ∀ entry ∈ lexicon.words, entry.2.kind = .compound ∨
    ((Instruction.ofName? entry.1).any fun i => decide (i = .switchUse ↔ entry.1 = "switchUse")) = true := by
  refine forall_words (P := fun name word => word.kind = .compound ∨
    ((Instruction.ofName? name).any fun i => decide (i = .switchUse ↔ name = "switchUse")) = true) ?_ ?_ ?_ ?_ ?_
  · decide
  · decide
  · exact fun _ _ => .inl rfl
  · exact fun _ _ => .inl rfl
  · exact fun _ _ => .inl rfl

section Words

variable {b b' : Behaviour World} {e : Engine} (he : Interprets e) {n m : Nat} {name : String} {args : List Arg}
include he

theorem get_of_interprets (other : String) :
    e.targets.get? other = if other = space then some lexicon else none := by
  rw [he]
  unfold Registry.get? Entries.get?
  split
  next heq => rw [if_pos heq.symm]
  next hne => rw [if_neg fun heq => hne heq.symm]; rfl

theorem instruction_of_compound {body : Body} (hword : lexicon.words.get? name = some (.compound body)) :
    e.instruction? ⟨space, name, args⟩ = none := by
  rw [Engine.instruction?, get_of_interprets he, if_pos rfl]
  dsimp only
  rw [if_pos]
  rw [Lexicon.develops, Lexicon.kindOf, resolve_eq hword]
  rfl

theorem instruction_of_word (args : List Arg) {word : Word} (hword : lexicon.words.get? name = some word)
    (hkind : word.kind ≠ .compound) : ∃ i, e.instruction? ⟨space, name, args⟩ = some i ∧ Instruction.ofName? name = some i ∧
      (i = .switchUse ↔ name = "switchUse") := by
  have hnamed := (words_named _ (Entries.mem_of_get? hword)).resolve_left hkind
  cases hi : Instruction.ofName? name with
  | none => simp [hi] at hnamed
  | some i =>
      refine ⟨i, ?_, rfl, by simpa [hi] using hnamed⟩
      rw [Engine.instruction?, get_of_interprets he, if_pos rfl]
      dsimp only
      rw [if_neg, hi]
      rw [Lexicon.develops, Lexicon.kindOf, resolve_eq hword]
      simpa using hkind

/-- A word without sentences of its own comes to an end at any depth. -/
theorem leaf_ends {S : Sentence → Prop} {i : Instruction} (hword : lexicon.words.get? name = some .atom)
    (hname : Instruction.ofName? name = some i) (hi : i ∉ [.tag, .ifElse, .switchUse])
    (hargs : ∀ a ∈ args, a.Documented S) : LexemEnds b b' e 0 ⟨space, name, args⟩ := by
  intro depth depth' _ _
  obtain ⟨i', hinstruction, hname', -⟩ := instruction_of_word he args hword (by simp [Word.kind])
  rw [hname, Option.some.injEq] at hname'
  exact instruction_finishes hinstruction (plain_finishes hargs i' (hname' ▸ hi))

/-- The sentences that bodies make of attributes come to an end one level down. -/
theorem admits_ends (hn : 1 ≤ n) : Admits (SentenceEnds b b' e n) := by
  refine fun s hs => (sentence_ends fun lexem hlexem => ?_).mono hn
  obtain ⟨hspace, hname, hargs⟩ := hs lexem hlexem
  obtain ⟨other, name, args⟩ := lexem
  cases hspace
  simp only [attributes, List.mem_cons, List.not_mem_nil, or_false] at hname
  rcases hname with rfl | rfl
  · exact leaf_ends he (get?_atom (by decide)) (show _ = some Instruction.attr from rfl) (by decide) hargs
  · exact leaf_ends he (get?_atom (by decide)) (show _ = some Instruction.prop from rfl) (by decide) hargs

/-- A child of a tag comes to an end, be it a sentence or a text. -/
theorem child_ends (hn : 1 ≤ n) {child : Arg} {phrase : Phrase} (hchild : child.Documented (SentenceEnds b b' e n))
    (hphrase : e.childPhrase ⟨space, name, args⟩ child = .ok phrase) : SentenceEnds b b' e n phrase.sentence := by
  have htext : ∀ s : Sentence, s.lexems = [⟨space, "text", [child]⟩] → SentenceEnds b b' e n s := by
    intro s hs
    refine (sentence_ends fun lexem hlexem => ?_).mono hn
    rw [hs, List.mem_singleton] at hlexem
    subst hlexem
    exact leaf_ends he (get?_atom (by decide)) (show _ = some Instruction.text from rfl) (by decide) (by simpa using hchild)
  unfold Engine.childPhrase Registry.get at hphrase
  simp only [get_of_interprets he, if_pos] at hphrase
  split at hphrase
  · cases hphrase
    exact hchild
  · cases hphrase
    exact htext _ rfl

/-- A word that is carried out comes to an end where the sentences in its arguments do. -/
theorem instruction_ends (hn : 1 ≤ n) {word : Word} (hword : lexicon.words.get? name = some word)
    (hkind : word.kind ≠ .compound) (hname : name ≠ "switchUse")
    (hargs : ∀ a ∈ args, a.Documented (SentenceEnds b b' e n)) : LexemEnds b b' e n ⟨space, name, args⟩ := by
  intro depth depth' hdepth hdepth'
  obtain ⟨i, hinstruction, -, hswitch⟩ := instruction_of_word he args hword hkind
  refine instruction_finishes hinstruction ?_
  have hends : ∀ s, SentenceEnds b b' e n s → s.Finishes (.within b e depth) (.within b' e depth') e :=
    fun s hs => hs depth depth' hdepth hdepth'
  cases i with
  | tag =>
      exact tag_finishes fun child hchild phrase hphrase =>
        hends _ (child_ends he hn (Lexem.children_documented hargs child hchild) hphrase)
  | ifElse => exact ifElse_finishes fun a ha => (hargs a ha).mono hends
  | switchUse => exact absurd (hswitch.mp rfl) hname
  | _ => exact plain_finishes hargs _ (by decide)

end Words

theorem word_of_hasWord {name : String} (h : lexicon.hasWord name = true) :
    ∃ word, lexicon.words.get? name = some word := by
  obtain ⟨⟨owner, word⟩, hresolve⟩ := Option.isSome_iff_exists.mp h
  obtain ⟨howner, hword⟩ := Lexicon.resolve_eq_some hresolve
  obtain rfl : owner = lexicon := List.mem_singleton.mp howner
  exact ⟨word, hword⟩

/-- A reference names a word of the vocabulary, or it is a mistake. -/
theorem useReference_yields {ctx : Context} {e : Engine} (he : Interprets e) {S : Sentence → Prop} (reference : String)
    (args : List Arg) (s : Sentence)
    (hwords : ∀ name word, lexicon.words.get? name = some word →
      Settles S (word.apply (interpreter ctx) lexicon s name args)) :
    Yields (Blames PassError.vocabulary) S (s.useReference (interpreter ctx) e.targets reference args) := by
  have hmistake : ∀ err : LexiconError, ¬ (PassError.vocabulary err).Internal →
      Yields (Blames PassError.vocabulary) S (throw (.error err) : Attempt LexiconError World Sentence) :=
    fun err h => .throw ⟨err, rfl, h⟩
  unfold Sentence.useReference
  split
  · exact hmistake _ id
  · rw [get_of_interprets he]
    split
    · exact hmistake _ id
    next found heq =>
      obtain rfl : lexicon = found := by
        split at heq
        · exact Option.some.inj heq
        · cases heq
      split
      next owner word hresolve =>
        obtain ⟨howner, hword⟩ := Lexicon.resolve_eq_some hresolve
        obtain rfl : owner = lexicon := List.mem_singleton.mp howner
        exact Settles.yields (hwords _ word hword).ofAct
      · exact hmistake _ id

theorem layer_le (name : String) : layer name ≤ 3 := by
  unfold layer
  split_ifs <;> decide

section Calls

variable {ctx : Context} {b b' : Behaviour World} {e : Engine} {n m : Nat} {args : List Arg}
variable (he : Interprets e) (hb : b.toInterpreter = interpreter ctx) (hb' : b'.toInterpreter = interpreter ctx) (hn : 1 ≤ n)
include he hb hb' hn

/-- Every word but a reference comes to an end, and its layer bounds how much deeper that is than its arguments. -/
theorem word_ends : ∀ (k : Nat) {name : String} {args : List Arg} {word : Word},
    lexicon.words.get? name = some word → name ≠ "switchUse" → layer name ≤ k →
    (∀ a ∈ args, a.Documented (SentenceEnds b b' e n)) → LexemEnds b b' e (n + k) ⟨space, name, args⟩ := by
  intro k
  induction k with
  | zero =>
      intro name args word hword hname hlayer hargs
      cases word with
      | compound body =>
          obtain ⟨_, _, _, _, _, hlower, _⟩ := compound_mild hword
          omega
      | _ => exact instruction_ends he hn hword (by simp [Word.kind]) hname hargs
  | succ k ih =>
      intro name args word hword hname hlayer hargs
      cases word with
      | compound body =>
          have hdevelop : Settles (SentenceEnds b b' e (n + k + 1))
              (lexicon.develop (interpreterWithin ctx (9998 + 2)) ⟨space, name, args⟩) := by
            refine (develop_documented (admits_ends he hn) hword hargs).mono fun s hs => ?_
            obtain ⟨called, args', hlexems, hhas, hne, hlower, hargs'⟩ := hs
            obtain ⟨word, hcalled⟩ := word_of_hasWord hhas
            refine sentence_ends fun lexem hlexem => ?_
            rw [hlexems, List.mem_singleton] at hlexem
            subst hlexem
            exact ih hcalled hne (by omega) hargs'
          intro depth depth' hdepth hdepth'
          refine compound_finishes (instruction_of_compound he hword) ?_
          unfold Engine.develop Registry.get
          simp only [get_of_interprets he, if_pos, Crew.within, hb, hb']
          exact .attempt (Settles.yields (hdevelop.mono fun s hs => hs depth depth' hdepth hdepth'))
      | _ =>
          exact (instruction_ends he hn hword (by simp [Word.kind]) hname hargs).mono (Nat.le_add_right _ _)

omit hn in
/-- A reference fares as the words do that it may name, and a sentence in its place as itself. -/
theorem switched_fares {S : Sentence → Prop} {k k' : Crew World} (hk : k.behaviour = b) (hk' : k'.behaviour = b')
    (hfirst : (argAt args 0).Documented S) (hS : ∀ s, S s → s.Finishes k k' e)
    (hwords : ∀ reference, argAt args 0 = .str reference → ∀ name word, lexicon.words.get? name = some word →
      Settles S (word.apply (interpreter ctx) lexicon (Sentence.empty lexicon .firstLevel) name (argAt args 1).items)) :
    Fares (Chosen k k' e) (e.switchedPhrase k.behaviour ⟨space, "switchUse", args⟩)
      (e.switchedPhrase k'.behaviour ⟨space, "switchUse", args⟩) := by
  have harg : Lexem.arg ⟨space, "switchUse", args⟩ 0 = argAt args 0 := rfl
  have hchosen : ∀ (identity : Option Identity) s, S s → Chosen k k' e (some ⟨identity, s⟩) := by
    rintro _ s hs _ ⟨⟩
    exact hS s hs
  unfold Engine.switchedPhrase
  rw [harg, hk, hk', hb, hb']
  cases hat : argAt args 0 with
  | null => exact .pure nofun
  | sentence identity s =>
      rw [hat] at hfirst
      exact .pure (hchosen _ s hfirst)
  | str reference =>
      unfold Registry.get
      dsimp only
      rw [get_of_interprets he]
      by_cases hspace : String.ofList (reference.toList.takeWhile (· ≠ ':')) = space
      · rw [if_pos hspace]
        exact (Fares.attempt (useReference_yields he reference _ _ (hwords reference hat))).bind fun s hs =>
          .pure (hchosen none s hs)
      · rw [if_neg hspace]
        exact .fail id
  | _ => exact (Fares.ofExcept (Lexem.outward_invalid _ 0 _)).mono fun _ h => by cases h

/-- A `switchUse` comes to an end one level further up than any word that it may name. -/
theorem switchUse_ends_after (hm : n + 3 ≤ m) (hargs : ∀ a ∈ args, a.Documented (SentenceEnds b b' e n))
    (hnext : ∀ reference, argAt args 0 = .str reference → ∀ list, LexemEnds b b' e m ⟨space, "switchUse",
      [argAt (argAt args 1).items 0, .list list ((argAt args 1).items.drop 1)]⟩) :
    LexemEnds b b' e (m + 1) ⟨space, "switchUse", args⟩ := by
  have hsingle : ∀ {name : String} {args : List Arg}, LexemEnds b b' e m ⟨space, name, args⟩ →
      SentenceEnds b b' e (m + 1) ((Sentence.empty lexicon .firstLevel).append space name args) := fun h =>
    sentence_ends fun lexem hlexem => List.mem_singleton.mp hlexem ▸ h
  have hitems : ∀ item ∈ (argAt args 1).items, item.Documented (SentenceEnds b b' e n) :=
    (argAt_documented hargs 1).items
  have halias : ("switchUse", body [.append space "switchUse" [.arg 0, .list [.rest 1]]]) ∈ aliases := by simp [aliases]
  intro depth depth' hdepth hdepth'
  obtain ⟨i, hinstruction, -, hswitch⟩ := instruction_of_word he args (get?_alias halias) (by decide)
  obtain rfl : i = .switchUse := hswitch.mpr rfl
  refine instruction_finishes hinstruction (switchUse_finishes ?_)
  refine switched_fares he hb hb' rfl rfl ((argAt_documented hargs 0).mono fun s hs => hs.mono (by omega))
    (fun s (hs : SentenceEnds b b' e (m + 1) s) => hs depth depth' hdepth hdepth') ?_
  intro reference hreference name word hword
  by_cases hname : name = "switchUse"
  · subst hname
    have hpacked : Settles _ (word.apply (interpreterWithin ctx (9999 + 1)) lexicon (Sentence.empty lexicon .firstLevel)
        "switchUse" (argAt args 1).items) := switchUse_packed rfl hword
    refine hpacked.mono fun s hs => ?_
    obtain ⟨list, rfl⟩ := hs
    exact hsingle (hnext reference hreference list)
  · have happlied : Settles _ (word.apply (interpreterWithin ctx (9999 + 1)) lexicon (Sentence.empty lexicon .firstLevel)
        name (argAt args 1).items) := word_documented (admits_ends he hn) rfl hword hitems
    refine happlied.mono fun s hs => ?_
    obtain ⟨args', rfl, hargs'⟩ := hs
    exact hsingle ((word_ends he hb hb' hn 3 hword hname (layer_le name) hargs').mono hm)

/-- A reference hands over one argument fewer to a reference that it names, so there is an end to that. -/
theorem switchUse_ends : ∀ (hops : Nat) {args : List Arg}, (argAt args 1).items.length ≤ hops →
    (∀ a ∈ args, a.Documented (SentenceEnds b b' e n)) → LexemEnds b b' e (n + 5 + hops) ⟨space, "switchUse", args⟩ := by
  have hpacked : ∀ {args : List Arg}, (∀ a ∈ args, a.Documented (SentenceEnds b b' e n)) → ∀ list,
      ∀ a ∈ [argAt (argAt args 1).items 0, .list list ((argAt args 1).items.drop 1)],
        a.Documented (SentenceEnds b b' e n) := by
    intro args hargs list
    have hitems := (argAt_documented hargs 1).items
    refine List.forall_mem_cons.mpr ⟨argAt_documented hitems 0, List.forall_mem_singleton.mpr ?_⟩
    exact argsDocumented_iff.mpr fun item hitem => hitems item (List.mem_of_mem_drop hitem)
  intro hops
  induction hops with
  | zero =>
      intro args hlength hargs
      have hnil : (argAt args 1).items = [] := List.length_eq_zero_iff.mp (Nat.le_zero.mp hlength)
      refine switchUse_ends_after he hb hb' hn (Nat.le_add_right (n + 3) 1) hargs fun reference _ list => ?_
      refine switchUse_ends_after he hb hb' hn (Nat.le_refl _) (hpacked hargs list) fun reference' hreference' => ?_
      rw [hnil] at hreference'
      cases hreference'
  | succ hops ih =>
      intro args hlength hargs
      refine switchUse_ends_after (m := n + 5 + hops) he hb hb' hn (by omega) hargs fun reference _ list =>
        ih ?_ (hpacked hargs list)
      have hdrop : ((argAt args 1).items.drop 1).length ≤ hops := by
        rw [List.length_drop]
        omega
      exact hdrop

end Calls

end Html

end Parlance
