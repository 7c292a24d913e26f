import Parlance.Document.Format
import Parlance.Proofs.Document.RoundTrip
import Parlance.Proofs.Json.Layouts

/-! What is written is read. Both written forms of a sentence are read as a sentence with the same document, provided
that no more lists and objects are open at once than a reader allows; beyond that the text is refused. -/

namespace Parlance

open Json

section Depth

mutual

/-- How many lists and objects are open at once in a value. -/
def Json.Value.depth : Value → Nat
  | .list items => depthOfItems items + 1
  | .object entries => depthOfEntries entries + 1
  | _ => 0

def Json.depthOfItems : List Value → Nat
  | [] => 0
  | v :: vs => max v.depth (depthOfItems vs)

def Json.depthOfEntries : List (String × Value) → Nat
  | [] => 0
  | (_, v) :: vs => max v.depth (depthOfEntries vs)

end

/-- A result that needs so many open lists and objects, where only so many may be opened. -/
def within {α : Type} (depth limit : Nat) (a : α) : Except Problem α :=
  if depth ≤ limit then .ok a else .error (.flaw .tooDeep)

variable {α β γ : Type}

theorem within_zero (limit : Nat) (a : α) : within 0 limit a = .ok a := if_pos (Nat.zero_le limit)

theorem within_succ_succ (depth limit : Nat) (a : α) : within (depth + 1) (limit + 1) a = within depth limit a := by
  simp [within]

theorem within_succ_zero (depth : Nat) (a : α) : within (depth + 1) 0 a = .error (.flaw .tooDeep) := rfl

/-- A result that is only wrapped. -/
theorem within_map (depth limit : Nat) (a : α) (f : α → β) :
    (within depth limit a >>= fun a => pure (f a)) = within depth limit (f a) := by
  unfold within
  split <;> rfl

/-- One result after another: whichever is too deep, the problem is the same. -/
theorem within_bind (depth depth' limit : Nat) (a : α) (b : β) (f : α → β → γ) :
    (within depth limit a >>= fun a => within depth' limit b >>= fun b => pure (f a b)) =
      within (max depth depth') limit (f a b) := by
  unfold within
  by_cases h : depth ≤ limit
  · by_cases h' : depth' ≤ limit
    · rw [if_pos h, if_pos h', if_pos (Nat.max_le.mpr ⟨h, h'⟩)]
      rfl
    · rw [if_pos h, if_neg h', if_neg fun hmax => h' (Nat.max_le.mp hmax).2]
      rfl
  · rw [if_neg h, if_neg fun hmax => h (Nat.max_le.mp hmax).1]
    rfl

end Depth

section Drafts

variable {limit : Nat}

/-- An argument with its type in front is read by that type. -/
theorem readArgDoc_tagged {name : String} {type : ArgType} (hname : ArgType.named.lookup name = some type) (d : Draft) :
    readArgDoc .streamed (limit + 1) (.object [(.read "type", .text (.read name)), (.read "value", d)] .closed) =
      readArgValue (readSentenceDoc .streamed limit) (readArgDocs .streamed limit) type limit d := by
  have hvariant : (Draft.text (.read name)).asVariant ArgType.named .streamed limit = .ok type := by
    change variantNamed ArgType.named name = _
    rw [variantNamed, hname]
  simp only [readArgDoc, nextArgField, Literal.value, bind, Except.bind, pure, Except.pure, hvariant]
  cases readArgValue (readSentenceDoc .streamed limit) (readArgDocs .streamed limit) type limit d <;> rfl

/-- The fields of a lexem are read in their order. -/
theorem readLexemDoc_fields (space name : String) (args : Draft) :
    readLexemDoc .streamed (limit + 1) (.object [(.read "namespace", .text (.read space)),
      (.read "name", .text (.read name)),
      (.read "args", args)] .closed) =
      (readArgDocs .streamed limit args >>= fun args => pure ⟨space, name, args⟩) := by
  simp only [readLexemDoc, readFields, Literal.value, bind, Except.bind, pure, Except.pure, once, Draft.asText]
  cases readArgDocs .streamed limit args <;> rfl

theorem Level.named_name (level : Level) : Level.named.lookup level.name = some level := by
  cases level <;> rfl

/-- The fields of a sentence are read in their order. -/
theorem readSentenceDoc_fields (lexicon : String) (level : Level) (lexems : Draft) :
    readSentenceDoc .streamed (limit + 1) (.object [(.read "lexicon", .text (.read lexicon)),
      (.read "level", .text (.read level.name)), (.read "lexems", lexems)] .closed) =
      (readLexemDocs .streamed limit lexems >>= fun lexems => pure ⟨lexicon, level, lexems⟩) := by
  have hvariant : (Draft.text (.read level.name)).asVariant Level.named .streamed limit = .ok level := by
    change variantNamed Level.named level.name = _
    rw [variantNamed, Level.named_name]
  simp only [readSentenceDoc, readFields, Literal.value, bind, Except.bind, pure, Except.pure, once, Draft.asText, hvariant]
  cases readLexemDocs .streamed limit lexems <;> rfl

mutual

theorem ArgDoc.read_draft :
    ∀ (d : ArgDoc) (limit : Nat), readArgDoc .streamed limit d.toJson.draft = within d.toJson.depth limit d
  | d, 0 => by cases d <;> rfl
  | .null, limit + 1 => rfl
  | .bool _, limit + 1 | .number _, limit + 1 | .str _, limit + 1 => (readArgDoc_tagged rfl _).trans rfl
  | .sentence doc, limit + 1 => by
      rw [ArgDoc.toJson, Value.draft]
      refine (readArgDoc_tagged rfl doc.toJson.draft).trans ?_
      rw [readArgValue, doc.read_draft limit, within_map]
      simp [Value.depth, depthOfEntries, within_succ_succ]
  | .list items, limit + 1 => by
      rw [ArgDoc.toJson, Value.draft]
      refine (readArgDoc_tagged rfl _).trans ?_
      rw [readArgValue, argDocs_read_draft items limit, within_map]
      simp [Value.depth, depthOfEntries, within_succ_succ]

theorem argDocs_read_draft :
    ∀ (ds : List ArgDoc) (limit : Nat),
      readArgDocs .streamed limit (Value.list (argsToJson ds)).draft = within (Value.list (argsToJson ds)).depth limit ds
  | ds, 0 => by simp only [Value.draft, readArgDocs, Value.depth, within_succ_zero]
  | ds, limit + 1 => by
      rw [Value.draft, readArgDocs, argItems_read_draft ds limit, Value.depth, within_succ_succ]

theorem argItems_read_draft :
    ∀ (ds : List ArgDoc) (limit : Nat),
      readAll (readArgDoc .streamed limit) (draftItems (argsToJson ds)) .closed =
        within (depthOfItems (argsToJson ds)) limit ds
  | [], limit => (within_zero limit []).symm
  | d :: ds, limit => by
      rw [argsToJson, draftItems, readAll, d.read_draft limit, argItems_read_draft ds limit, within_bind, depthOfItems]

theorem LexemDoc.read_draft :
    ∀ (d : LexemDoc) (limit : Nat), readLexemDoc .streamed limit d.toJson.draft = within d.toJson.depth limit d
  | ⟨_, _, _⟩, 0 => rfl
  | ⟨space, name, args⟩, limit + 1 => by
      rw [LexemDoc.toJson, Value.draft]
      refine (readLexemDoc_fields space name (Value.list (argsToJson args)).draft).trans ?_
      rw [argDocs_read_draft args limit, within_map]
      simp [Value.depth, depthOfEntries, within_succ_succ]

theorem lexemDocs_read_draft :
    ∀ (ds : List LexemDoc) (limit : Nat), readLexemDocs .streamed limit (Value.list (lexemsToJson ds)).draft =
      within (Value.list (lexemsToJson ds)).depth limit ds
  | _, 0 => rfl
  | ds, limit + 1 => by
      rw [Value.draft, readLexemDocs, lexemItems_read_draft ds limit, Value.depth, within_succ_succ]

theorem lexemItems_read_draft :
    ∀ (ds : List LexemDoc) (limit : Nat),
      readAll (readLexemDoc .streamed limit) (draftItems (lexemsToJson ds)) .closed =
        within (depthOfItems (lexemsToJson ds)) limit ds
  | [], limit => (within_zero limit []).symm
  | d :: ds, limit => by
      rw [lexemsToJson, draftItems, readAll, d.read_draft limit, lexemItems_read_draft ds limit, within_bind, depthOfItems]

/-- The draft of a document is read as that document if no more parts are open at once than may be opened. -/
theorem SentenceDoc.read_draft :
    ∀ (d : SentenceDoc) (limit : Nat), readSentenceDoc .streamed limit d.toJson.draft = within d.toJson.depth limit d
  | ⟨_, _, _⟩, 0 => rfl
  | ⟨lexicon, level, lexems⟩, limit + 1 => by
      rw [SentenceDoc.toJson, Value.draft]
      refine (readSentenceDoc_fields lexicon level (Value.list (lexemsToJson lexems)).draft).trans ?_
      rw [lexemDocs_read_draft lexems limit, within_map]
      simp [Value.depth, depthOfEntries, within_succ_succ]

end

end Drafts

/-- The arguments whose leaves are read as they are written: null, booleans, texts and whole numbers. -/
def Arg.Plain : Arg → Prop
  | .null | .bool _ | .str _ => True
  | .number n => ∃ k, n.IsWholeOf k ∧ Steady k
  | _ => False

mutual

/-- How many lists and objects are open at once in the written form of an argument. -/
def Arg.nesting : Arg → Nat
  | .sentence _ s => s.nesting + 1
  | .list _ items => nestingOfArgs items + 2
  | _ => 1

def nestingOfArgs : List Arg → Nat
  | [] => 0
  | a :: as => max a.nesting (nestingOfArgs as)

def nestingOfLexems : List Lexem → Nat
  | [] => 0
  | ⟨_, _, args⟩ :: lexems => max (nestingOfArgs args + 2) (nestingOfLexems lexems)

/-- How many lists and objects are open at once in the written form of a sentence. -/
def Sentence.nesting : Sentence → Nat
  | ⟨_, _, lexems⟩ => nestingOfLexems lexems + 2

end

mutual

/-- What an argument asks a registry for. -/
def Arg.lookups : Arg → List Lookup
  | .sentence _ s => s.lookups
  | .list _ items => lookupsInArgs items
  | _ => []

def lookupsInArgs : List Arg → List Lookup
  | [] => []
  | a :: as => a.lookups ++ lookupsInArgs as

def lookupsInLexems : List Lexem → List Lookup
  | [] => []
  | ⟨space, name, args⟩ :: lexems => [.lexicon space, .word space name] ++ lookupsInArgs args ++ lookupsInLexems lexems

/-- The lexicons and words that a sentence is made of. -/
def Sentence.lookups : Sentence → List Lookup
  | ⟨lexicon, _, lexems⟩ => .lexicon lexicon.name :: lookupsInLexems lexems

end

section Images

mutual

/-- A plain argument has a document, which is legible and as deep as the argument and asks for the same. -/
theorem Arg.exists_doc (word : String) (index : Nat) :
    ∀ {a : Arg}, (∀ leaf ∈ a.leaves word index, leaf.arg.Plain) →
      ∃ d, a.toDoc word index = .ok d ∧ d.toJson.Legible ∧ d.toJson.depth = a.nesting ∧ d.lookups = a.lookups
  | .null, _ => ⟨.null, rfl, ⟨trivial, trivial⟩, rfl, rfl⟩
  | .bool b, _ => ⟨.bool b, rfl, ⟨trivial, trivial, trivial⟩, rfl, rfl⟩
  | .str s, _ => ⟨.str s, rfl, ⟨trivial, trivial, trivial⟩, rfl, rfl⟩
  | .number n, h => ⟨.number n, rfl, ⟨trivial, h _ List.mem_cons_self, trivial⟩, rfl, rfl⟩
  | .sentence identity s, h => by
      obtain ⟨doc, hdoc, hlegible, hdepth, hlookups⟩ := s.exists_doc h
      refine ⟨.sentence doc, ?_, ⟨trivial, hlegible, trivial⟩, ?_, hlookups⟩
      · rw [Arg.toDoc, hdoc]
        rfl
      · simp [ArgDoc.toJson, Value.depth, depthOfEntries, hdepth, Arg.nesting]
  | .list identity items, h => by
      obtain ⟨docs, hdocs, hlegible, hdepth, hlookups⟩ := itemsToDocs_exists word index h
      refine ⟨.list docs, ?_, ⟨trivial, hlegible, trivial⟩, ?_, hlookups⟩
      · rw [Arg.toDoc, hdocs]
        rfl
      · simp [ArgDoc.toJson, Value.depth, depthOfEntries, hdepth, Arg.nesting]
  | .data _, h | .render _, h | .handler _, h | .callback _, h | .component _, h | .hook _, h =>
      (h _ List.mem_cons_self).elim

theorem itemsToDocs_exists (word : String) (index : Nat) :
    ∀ {as : List Arg}, (∀ leaf ∈ leavesOfItems word index as, leaf.arg.Plain) →
      ∃ ds, itemsToDocs word index as = .ok ds ∧ LegibleItems (argsToJson ds) ∧
        depthOfItems (argsToJson ds) = nestingOfArgs as ∧ lookupsOfArgs ds = lookupsInArgs as
  | [], _ => ⟨[], rfl, trivial, rfl, rfl⟩
  | a :: as, h => by
      obtain ⟨ha, has⟩ := List.forall_mem_append.mp h
      obtain ⟨d, hd, hlegible, hdepth, hlookups⟩ := a.exists_doc word index ha
      obtain ⟨ds, hds, hlegibles, hdepths, hlookupss⟩ := itemsToDocs_exists word index has
      refine ⟨d :: ds, ?_, ⟨hlegible, hlegibles⟩, ?_, ?_⟩
      · rw [itemsToDocs, hd, hds]
        rfl
      · rw [argsToJson, depthOfItems, hdepth, hdepths, nestingOfArgs]
      · rw [lookupsOfArgs, hlookups, hlookupss, lookupsInArgs]

theorem argsToDocs_exists (word : String) (index : Nat) :
    ∀ {as : List Arg}, (∀ leaf ∈ leavesOfArgs word index as, leaf.arg.Plain) →
      ∃ ds, argsToDocs word index as = .ok ds ∧ LegibleItems (argsToJson ds) ∧
        depthOfItems (argsToJson ds) = nestingOfArgs as ∧ lookupsOfArgs ds = lookupsInArgs as
  | [], _ => ⟨[], rfl, trivial, rfl, rfl⟩
  | a :: as, h => by
      obtain ⟨ha, has⟩ := List.forall_mem_append.mp h
      obtain ⟨d, hd, hlegible, hdepth, hlookups⟩ := a.exists_doc word index ha
      obtain ⟨ds, hds, hlegibles, hdepths, hlookupss⟩ := argsToDocs_exists word (index + 1) has
      refine ⟨d :: ds, ?_, ⟨hlegible, hlegibles⟩, ?_, ?_⟩
      · rw [argsToDocs, hd, hds]
        rfl
      · rw [argsToJson, depthOfItems, hdepth, hdepths, nestingOfArgs]
      · rw [lookupsOfArgs, hlookups, hlookupss, lookupsInArgs]

theorem lexemsToDocs_exists :
    ∀ {lexems : List Lexem}, (∀ leaf ∈ leavesOfLexems lexems, leaf.arg.Plain) →
      ∃ ds, lexemsToDocs lexems = .ok ds ∧ LegibleItems (lexemsToJson ds) ∧
        depthOfItems (lexemsToJson ds) = nestingOfLexems lexems ∧ lookupsOfLexems ds = lookupsInLexems lexems
  | [], _ => ⟨[], rfl, trivial, rfl, rfl⟩
  | ⟨space, name, args⟩ :: lexems, h => by
      obtain ⟨hargs, hlexems⟩ := List.forall_mem_append.mp h
      obtain ⟨d, hd, hlegible, hdepth, hlookups⟩ := argsToDocs_exists name 0 hargs
      obtain ⟨ds, hds, hlegibles, hdepths, hlookupss⟩ := lexemsToDocs_exists hlexems
      refine ⟨⟨space, name, d⟩ :: ds, ?_, ⟨⟨trivial, trivial, hlegible, trivial⟩, hlegibles⟩, ?_, ?_⟩
      · rw [lexemsToDocs, hd, hds]
        rfl
      · rw [lexemsToJson, LexemDoc.toJson, depthOfItems, hdepths]
        simp [Value.depth, depthOfEntries, hdepth, nestingOfLexems]
      · rw [lookupsOfLexems, hlookups, hlookupss, lookupsInLexems]

theorem Sentence.exists_doc :
    ∀ {s : Sentence}, (∀ leaf ∈ s.leaves, leaf.arg.Plain) →
      ∃ doc, s.toDoc = .ok doc ∧ doc.toJson.Legible ∧ doc.toJson.depth = s.nesting ∧ doc.lookups = s.lookups
  | ⟨lexicon, level, lexems⟩, h => by
      obtain ⟨docs, hdocs, hlegible, hdepth, hlookups⟩ := lexemsToDocs_exists h
      refine ⟨⟨lexicon.name, level, docs⟩, ?_, ⟨trivial, trivial, hlegible, trivial⟩, ?_, ?_⟩
      · rw [Sentence.toDoc, hdocs]
        rfl
      · rw [SentenceDoc.toJson]
        simp [Value.depth, depthOfEntries, hdepth, Sentence.nesting]
      · rw [SentenceDoc.lookups, hlookups, Sentence.lookups]

end

end Images

/-- A written document is read up to the depth that a reader allows. -/
theorem SentenceDoc.ofText_written {doc : SentenceDoc} (hlegible : doc.toJson.Legible) {text : String}
    (htext : text ∈ [doc.toJson.compact, doc.toJson.pretty 0]) :
    SentenceDoc.ofText text = within doc.toJson.depth depthLimit doc := by
  rw [SentenceDoc.ofText, decode, Draft.ofText_written hlegible htext]
  simp only [doc.read_draft depthLimit]
  exact within_map _ _ doc id

section RoundTrip

variable {ω : Type} {i : Interpreter ω} {registry : Registry} {s : Sentence}

/-- A plain sentence is written in both forms, and either form is read like its document, unless it is too deep. -/
theorem Sentence.written (hplain : ∀ leaf ∈ s.leaves, leaf.arg.Plain) :
    ∃ doc text pretty, s.toDoc = .ok doc ∧ s.toText = .ok text ∧ s.toPrettyText = .ok pretty ∧ doc.lookups = s.lookups ∧
      ∀ t ∈ [text, pretty], SentenceDoc.ofText t = within s.nesting depthLimit doc := by
  obtain ⟨doc, hdoc, hlegible, hdepth, hlookups⟩ := s.exists_doc hplain
  refine ⟨doc, doc.toJson.compact, doc.toJson.pretty 0, hdoc, ?_, ?_, hlookups, fun t ht => ?_⟩
  · rw [Sentence.toText, hdoc]
    rfl
  · rw [Sentence.toPrettyText, hdoc]
    rfl
  · rw [doc.ofText_written hlegible ht, hdepth]

/-- Every plain sentence is written, and what has been written is read as a sentence with the same document exactly if no
more than `depthLimit` lists and objects are open in it at once; otherwise either text is refused. -/
theorem written_is_read (hdraws : i.Draws) (hbuilt : registry.Built) (hplain : ∀ leaf ∈ s.leaves, leaf.arg.Plain)
    (hmet : ∀ q ∈ s.lookups, q.met registry = true) :
    ∃ doc text pretty, s.toDoc = .ok doc ∧ s.toText = .ok text ∧ s.toPrettyText = .ok pretty ∧
      ∀ t ∈ [text, pretty], ∀ w,
        (s.nesting ≤ depthLimit → ∃ s' w', Sentence.ofText i registry t w = .ok s' w' ∧ s'.toDoc = .ok doc) ∧
        (depthLimit < s.nesting → Sentence.ofText i registry t w = .error (.error (.malformed (.flaw .tooDeep))) w) := by
  obtain ⟨doc, text, pretty, hdoc, htext, hpretty, hlookups, hread⟩ := s.written hplain
  refine ⟨doc, text, pretty, hdoc, htext, hpretty, fun t ht w => ⟨fun hdepth => ?_, fun hdepth => ?_⟩⟩
  · have hreads : Reads (doc.toSentence i registry) _ := doc.toSentence_reads hdraws
    have hfound : registry.firstMissing doc.lookups = none := by
      rw [hlookups, Registry.firstMissing, List.find?_eq_none]
      exact fun q hq => by simp [hmet q hq]
    rw [hfound] at hreads
    obtain ⟨s', w', hs'⟩ := hreads w
    refine ⟨s', w', ?_, doc.toDoc_toSentence hbuilt.byName hs'⟩
    rw [Sentence.ofText, hread t ht, within, if_pos hdepth]
    exact hs'
  · rw [Sentence.ofText, hread t ht, within, if_neg (Nat.not_le.mpr hdepth)]
    rfl

end RoundTrip

/-- A note inside of so many others. -/
def Sentence.nestedNote : Nat → Sentence
  | 0 => ⟨Lexicon.noted, .firstLevel,
      [⟨"notes", "note", [.number (.ofNat 7), .str "\"a\n", .list ⟨0⟩ [.bool true, .null]]⟩]⟩
  | n + 1 => ⟨Lexicon.noted, .firstLevel, [⟨"notes", "note", [.sentence ⟨0⟩ (nestedNote n)]⟩]⟩

theorem Sentence.nesting_nestedNote (n : Nat) : (nestedNote n).nesting = 5 * n + 7 := by
  induction n with
  | zero => rfl
  | succ n ih =>
      simp only [nestedNote, nesting, nestingOfLexems, nestingOfArgs, Arg.nesting, ih]
      omega

theorem Sentence.plain_nestedNote (n : Nat) : ∀ leaf ∈ (nestedNote n).leaves, leaf.arg.Plain := by
  induction n with
  | zero =>
      have hseven : (Number.ofNat 7).IsWholeOf 7 := (Number.IsWholeOf.ofNat (by decide)).1
      simp only [nestedNote, leaves, leavesOfLexems, leavesOfArgs, leavesOfItems, Arg.leaves, List.cons_append,
        List.nil_append,
        List.append_nil, List.forall_mem_cons]
      exact ⟨⟨7, hseven, steady_of_le (by decide)⟩, trivial, trivial, trivial, nofun⟩
  | succ n ih => simpa [nestedNote, leaves, leavesOfLexems, leavesOfArgs, Arg.leaves] using ih

theorem Sentence.met_nestedNote (n : Nat) :
    ∀ q ∈ (nestedNote n).lookups, q.met (Registry.empty.registerWithAncestors Lexicon.noted) = true := by
  have hown : ∀ q ∈ [Lookup.lexicon "notes", .lexicon "notes", .word "notes" "note"],
      q.met (Registry.empty.registerWithAncestors Lexicon.noted) = true := by decide
  induction n with
  | zero => exact hown
  | succ n ih =>
      simp only [nestedNote, lookups, lookupsInLexems, lookupsInArgs, Arg.lookups, List.append_nil]
      exact List.forall_mem_append.mpr ⟨hown, ih⟩

theorem written_is_read_nested :
    Interpreter.counting.Draws ∧ (Registry.empty.registerWithAncestors Lexicon.noted).Built ∧
    ∃ doc text pretty, (Sentence.nestedNote 24).toDoc = .ok doc ∧ (Sentence.nestedNote 24).toText = .ok text ∧
      (Sentence.nestedNote 24).toPrettyText = .ok pretty ∧
      ∀ t ∈ [text, pretty], ∃ s' w', Sentence.ofText Interpreter.counting
        (Registry.empty.registerWithAncestors Lexicon.noted) t 0 = .ok s' w' ∧ s'.toDoc = .ok doc := by
  have hdraws : Interpreter.counting.Draws := fun w => ⟨⟨w⟩, w + 1, rfl⟩
  have hbuilt : (Registry.empty.registerWithAncestors Lexicon.noted).Built := .registerWithAncestors _ .empty
  obtain ⟨doc, text, pretty, hdoc, htext, hpretty, hread⟩ :=
    written_is_read hdraws hbuilt (Sentence.plain_nestedNote 24) (Sentence.met_nestedNote 24)
  refine ⟨hdraws, hbuilt, doc, text, pretty, hdoc, htext, hpretty, fun t ht => (hread t ht 0).1 ?_⟩
  rw [Sentence.nesting_nestedNote]
  decide

/-- One note more, and what has been written is refused. -/
theorem nested_refused :
    (∀ leaf ∈ (Sentence.nestedNote 25).leaves, leaf.arg.Plain) ∧
    (∀ q ∈ (Sentence.nestedNote 25).lookups, q.met (Registry.empty.registerWithAncestors Lexicon.noted) = true) ∧
    ∃ text pretty, (Sentence.nestedNote 25).toText = .ok text ∧ (Sentence.nestedNote 25).toPrettyText = .ok pretty ∧
      ∀ t ∈ [text, pretty], Sentence.ofText Interpreter.counting
        (Registry.empty.registerWithAncestors Lexicon.noted) t 0 = .error (.error (.malformed (.flaw .tooDeep))) 0 := by
  have hplain := Sentence.plain_nestedNote 25
  obtain ⟨doc, text, pretty, -, htext, hpretty, -, hread⟩ := Sentence.written hplain
  refine ⟨hplain, Sentence.met_nestedNote 25, text, pretty, htext, hpretty, fun t ht => ?_⟩
  have hdeep : ¬ 5 * 25 + 7 ≤ depthLimit := by decide
  rw [Sentence.ofText, hread t ht, Sentence.nesting_nestedNote, within, if_neg hdeep]
  rfl

end Parlance
