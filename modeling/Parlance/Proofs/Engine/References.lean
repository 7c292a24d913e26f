import Parlance.Proofs.Engine.Dialects
import Parlance.Proofs.Lexicon.Answering

/-! References. A word that is named by a reference is found in the lexicon that the reference names, and does what it
does to a sentence of any other lexicon. A compound on the first level waits there until it is rendered; but what runs
at once, an alias or a compound on the atomic level, calls its words on the sentence, and so it comes to an end exactly
if the lexicon of the sentence has them. If it has them, with their meanings, both levels are rendered alike. -/

namespace Parlance

/-- Calls a word by a reference on the empty sentence of an initializer and renders what comes of it under a parent. -/
def Engine.refer (e : Engine) (ctx : Context) (registry : Registry) (h : Initializer) (parent : NodeId)
    (reference : String) (args : List Arg) : Attempt SessionError (Stage World) Rendered := do
  let s ← ((h.empty.useReference (Script.interpreter ctx) registry reference args).mapError
    (.script ∘ .vocabulary)).onStage
  Attempt.mapError SessionError.pass (e.render (Script.behaviour ctx) parent s)

/-- A reference names a word of a registered lexicon. -/
structure Registry.Names (registry : Registry) (reference : String) (d : Lexicon) (name : String) : Prop where
  word : d.hasWord name = true
  found : ∃ space, Sentence.splitReference reference = some (space, name) ∧ registry.get? space = some d

variable {registry : Registry} {reference name : String} {l d : Lexicon} {args : List Arg}

theorem Registry.Names.useReference (h : registry.Names reference d name) : ∃ owner word,
    d.resolve name = some (owner, word) ∧ ∀ {ω : Type} (i : Interpreter ω) (s : Sentence) (args : List Arg),
      s.useReference i registry reference args = .ofAct (word.apply i owner s name args) := by
  obtain ⟨⟨owner, word⟩, hresolve⟩ := Option.isSome_iff_exists.mp h.word
  obtain ⟨space, hparts, hregistered⟩ := h.found
  refine ⟨owner, word, hresolve, fun i s args => ?_⟩
  rw [Sentence.useReference, hparts]
  simp only [hregistered, hresolve]

/-- Where the lexicon of the sentences has all that a word leads to, with its meanings, the atomic level spells out what
a reference comes to on the first level. -/
theorem useReference_levels (ctx : Context) (hd : d.Expandable) (hnames : registry.Names reference d name)
    (hkeeps : l.Keeps d .atomic name) (hhears : l.Hears d .atomic name) (hargs : argsSpoken args = true) :
    AttemptsAgree True (fun s s' => LexemsSpelt ctx d s.lexems s'.lexems)
      ((Sentence.empty l .firstLevel).useReference (Script.interpreter ctx) registry reference args)
      ((Sentence.empty l .atomic).useReference (Script.interpreter ctx) registry reference args) := by
  obtain ⟨owner, word, hresolve, hreference⟩ := hnames.useReference
  obtain ⟨howner, hword⟩ := Lexicon.resolve_eq_some hresolve
  have hsame : ∀ called, d.LeadsTo .atomic name called → l.resolve called = d.resolve called := fun called hleads =>
    (hkeeps called hleads).resolve_right fun hmissing => by
      rw [hhears called hleads] at hmissing
      cases hmissing
  have hconcurs : ∀ body, word.body? = some body → ∀ called ∈ wordsCalled body.calls, d.Concurs l called := by
    intro body hbody called hcalled
    have huses : d.Uses .atomic name called := by
      refine ⟨owner, word, body, hresolve, ?_, hcalled⟩
      cases word <;> exact hbody
    exact .of_leadsTo (hsame called (.single huses)) fun further hfurther => hsame further (.head huses hfurther)
  have habreast : Abreast d d .atomic (Sentence.empty l .firstLevel) (Sentence.empty l .atomic) :=
    ⟨.within d.mem_chain_self, rfl, rfl⟩
  have hspells : (Script.interpreter ctx).Spells ctx d (Script.interpreter ctx) := Script.interpreter_spelt ctx hd
  rw [hreference, hreference]
  exact (apply_spelt hd hspells hspells habreast howner hword (fun body hbody called hcalled =>
    ⟨hconcurs body hbody called hcalled, hconcurs body hbody called hcalled⟩) (args_spelt_self args hargs)).ofAct.mono
      fun _ _ h => h.lexems

/-- A word of a registered lexicon, whose bodies call each other in tiers, is called by a reference on sentences of a
lexicon that gives no other meaning to what the word leads to. On either level the call succeeds exactly if the lexicon
of the sentence has every word to which the word leads on that level; and if it has those of the atomic level, both
levels are rendered alike. -/
theorem reference_answered (ctx : Context) {rank : String → Nat} {e : Engine} (hd : d.Expandable)
    (htiers : d.Tiered rank) (hrank : rank name < Script.depthLimit) (he : e.Interprets d)
    (hnames : registry.Names reference d name) (hkeeps : l.Keeps d .atomic name) (hargs : argsSpoken args = true) :
    (∀ (s : Sentence) (w : World), s.lexicon = l → ((∃ t w',
      s.useReference (Script.interpreter ctx) registry reference args w = .ok t w') ↔ l.Hears d s.level name)) ∧
    (l.Hears d .atomic name → ∀ (parent : NodeId) {σ σ' : Stage World}, σ.host = σ'.host →
      ¬ TooDeep (e.refer ctx registry ⟨l, .firstLevel⟩ parent reference args σ) →
      ¬ TooDeep (e.refer ctx registry ⟨l, .atomic⟩ parent reference args σ') →
      SameOutcome (e.refer ctx registry ⟨l, .firstLevel⟩ parent reference args σ)
        (e.refer ctx registry ⟨l, .atomic⟩ parent reference args σ')) := by
  refine ⟨?_, fun hhears parent {σ σ'} hhost hfirst hatomic => ?_⟩
  · rintro s w rfl
    obtain ⟨owner, word, hresolve, hreference⟩ := hnames.useReference
    have hkept : s.lexicon.Keeps d s.level name := fun called hleads => hkeeps called hleads.atomic
    have hanswers : (Script.interpreter ctx).Answers d rank Script.depthLimit :=
      Script.interpreterWithin_answers hd htiers Script.depthLimit
    rw [hreference, Attempt.ofAct]
    rcases hanswers s args hrank hresolve hkept w with ⟨t, w', hrun, -, hhears⟩ | ⟨trouble, w', hrun, hmisses⟩
    · exact ⟨fun _ => hhears, fun _ => ⟨t, w', by rw [hrun]⟩⟩
    · refine ⟨fun hok => ?_, fun hhears => absurd hmisses hhears.not_misses⟩
      obtain ⟨t, w'', hok⟩ := hok
      rw [hrun] at hok
      cases hok
  · have hcall := (useReference_levels ctx hd hnames hkeeps hhears hargs).mapError (SessionError.script ∘ .vocabulary)
    refine SameOutcome.of_agrees (Q := fun _ _ => True) ((Attempt.onStage_agrees hcall).bind fun s s' hs => ?_) hhost
      hfirst hatomic
    have hphrase : Engine.PhraseSpelt ctx d (.new s) (.new s') := hs
    exact ((Engine.renderWithin_spelt hd he Engine.depthLimit (Nat.le_refl _) rfl).1 hphrase).mapError _

namespace Html

/-- A dialect with a marked text, which has a title of its own. -/
def notes : Lexicon :=
  (Lexicon.new "notes" (some lexicon)).addCompounds
    [("note", body [.word "tag" [.str "mark", .list [phrase [.word "attr" [.str "title", .arg 0]], .rest 1]]])]

theorem get?_note : notes.words.get? "note" = some (.compound (body
    [.word "tag" [.str "mark", .list [phrase [.word "attr" [.str "title", .arg 0]], .rest 1]]])) := rfl

theorem notes_expandable : notes.Expandable := by
  refine lexicon_expandable.dialect (by decide) ?_ ?_ <;> rw [hasWord_eq] <;> decide

theorem notes_tiered : notes.Tiered layer := by
  have hchain : notes.chain = notes :: lexicon.chain := Lexicon.chain_dialect
  have hown : notes.hasWord = fun n => decide (n ∈ ["note"]) || decide (n ∈ names) := by
    rw [notes, Lexicon.hasWord_dialect, hasWord_eq]
    rfl
  unfold Lexicon.Tiered
  rw [hchain, List.forall_mem_cons, hown]
  refine ⟨?_, fun owner howner entry hentry body hbody => (lexicon_layered.bodies owner howner entry hentry body hbody).1⟩
  intro entry hentry
  obtain rfl := List.mem_singleton.mp (show entry ∈ [_] from hentry)
  decide

/-- The built-in vocabulary has all that a note leads to, as its dialect has it. -/
theorem notes_lead {name : String} (h : notes.LeadsTo .atomic "note" name) :
    lexicon.resolve name = notes.resolve name ∧ lexicon.hasWord name = true := by
  have hchain : notes.chain = notes :: lexicon.chain := Lexicon.chain_dialect
  have hlexicon : lexicon ∈ notes.chain := hchain ▸ List.mem_cons_of_mem _ lexicon.mem_chain_self
  obtain ⟨first, ⟨owner, word, body, hresolve, hbody, hfirst⟩, hreached⟩ := Relation.TransGen.head'_iff.mp h
  obtain rfl : first = "tag" := by
    rw [Lexicon.resolve_own get?_note] at hresolve
    cases hresolve
    cases hbody
    exact List.mem_singleton.mp hfirst
  have htag : lexicon.hasWord "tag" = true := by
    rw [hasWord_eq]
    decide
  rcases Relation.reflTransGen_iff_eq_or_transGen.mp hreached with rfl | hleads
  · exact ⟨(notes_expandable.resolve_inherited notes.mem_chain_self hlexicon htag).symm, htag⟩
  · exact notes_expandable.resolve_of_leadsTo hlexicon htag hleads

/-- A registry with the dialect alone. -/
def noted : Registry := Registry.empty.register notes

theorem noted_names : noted.Names "notes:note" notes "note" := by
  refine ⟨?_, "notes", by decide, ?_⟩
  · rw [notes, Lexicon.hasWord_dialect]
    rfl
  · rw [noted, Registry.get?, Registry.register, Entries.get?_put, notes, Lexicon.name_dialect]
    rfl

theorem noted_useReference {ω : Type} (i : Interpreter ω) (s : Sentence) (args : List Arg) :
    s.useReference i noted "notes:note" args = .ofAct ((Word.compound (body
      [.word "tag" [.str "mark", .list [phrase [.word "attr" [.str "title", .arg 0]], .rest 1]]])).apply i notes s "note"
        args) := by
  obtain ⟨owner, word, hresolve, hreference⟩ := noted_names.useReference
  rw [Lexicon.resolve_own get?_note] at hresolve
  cases hresolve
  exact hreference i s args

end Html

/-- A sentence of the built-in vocabulary takes a note from the dialect on either level, and both are rendered alike. -/
theorem reference_answered_note :
    (∀ level, ∃ t w, (Sentence.empty Html.lexicon level).useReference (Script.interpreter .html) Html.noted "notes:note"
      [.str "Title", .str "text"] World.new = .ok t w) ∧
    SameOutcome
      (((Engine.new Config.default).addLexicon Html.notes).refer .html Html.noted ⟨Html.lexicon, .firstLevel⟩ Host.root
        "notes:note" [.str "Title", .str "text"] ⟨Host.new, #[], World.new⟩)
      (((Engine.new Config.default).addLexicon Html.notes).refer .html Html.noted ⟨Html.lexicon, .atomic⟩ Host.root
        "notes:note" [.str "Title", .str "text"] ⟨Host.new, #[], World.new⟩) := by
  have hspoken : argsSpoken [.str "Title", .str "text"] = true := rfl
  have hanswered := reference_answered .html (l := Html.lexicon) Html.notes_expandable Html.notes_tiered (by decide)
    (Engine.interprets_new Html.notes_expandable Config.default) Html.noted_names
    (fun _ hleads => .inl (Html.notes_lead hleads).1) hspoken
  have hhears : Html.lexicon.Hears Html.notes .atomic "note" := fun _ hleads => (Html.notes_lead hleads).2
  have hruns : ∀ level, level ∈ [.firstLevel, .atomic] → succeededAfter 5
      (((Engine.new Config.default).addLexicon Html.notes).refer .html Html.noted ⟨Html.lexicon, level⟩ Host.root
        "notes:note" [.str "Title", .str "text"] ⟨Host.new, #[], World.new⟩) = true := by
    unfold Engine.refer
    simp only [Html.noted_useReference]
    rw [Html.notes, Html.lexicon_eq]
    decide
  exact ⟨fun level => (hanswered.1 _ World.new rfl).mpr fun _ hleads => hhears _ hleads.atomic,
    hanswered.2 hhears Host.root rfl (not_tooDeep (hruns .firstLevel (by decide)))
      (not_tooDeep (hruns .atomic (by decide)))⟩

/-- The message with which an attempt breaks off. -/
def brokenOff? {ε ω α : Type} : EStateM.Result (Halt ε) ω α → Option String
  | .error (.trouble (.brokenOff message)) _ => some message
  | _ => none

/-- A lexicon of its own, without any words. -/
def mute : Lexicon := Lexicon.new "mute" none

/-- A section is taken by the first level of a lexicon without words, and the atomic level breaks off there. -/
theorem reference_refused :
    (∃ t w, (Sentence.empty mute .firstLevel).useReference (Script.interpreter .html) Context.html.registry "html:div"
      [.str "x"] World.new = .ok t w) ∧
    brokenOff? ((Sentence.empty mute .atomic).useReference (Script.interpreter .html) Context.html.registry "html:div"
      [.str "x"] World.new) = some "Word `tag` is not defined in lexicon mute" := by
  have hnames : Context.html.registry.Names "html:div" Html.lexicon "div" := by
    refine ⟨?_, "html", by decide, rfl⟩
    rw [Html.hasWord_eq]
    decide
  obtain ⟨owner, word, hresolve, hreference⟩ := hnames.useReference
  rw [Html.resolve_tag (by decide)] at hresolve
  cases hresolve
  rw [hreference, hreference]
  exact ⟨⟨_, _, rfl⟩, by decide⟩

end Parlance
