import Parlance.Proofs.Lexicon.NormalForm

/-! Which words a sentence can answer. A word that is brought to a sentence from another lexicon runs its body there,
and the words to which it leads are looked up in the lexicon of the sentence. If this lexicon has all of them the
sentence is extended; if one of them is missing the run breaks off at a missing word. -/

namespace Parlance

/-- The sentence has been extended by lexems. -/
def Sentence.Grows (s t : Sentence) : Prop := ∃ added, t = ⟨s.lexicon, s.level, s.lexems ++ added⟩

namespace Sentence.Grows

variable {s t u : Sentence}

theorem refl (s : Sentence) : s.Grows s := ⟨[], by cases s; simp⟩

theorem trans (h : s.Grows t) (h' : t.Grows u) : s.Grows u := by
  obtain ⟨added, rfl⟩ := h
  obtain ⟨more, rfl⟩ := h'
  exact ⟨added ++ more, by simp⟩

theorem lexicon_eq (h : s.Grows t) : t.lexicon = s.lexicon := by
  obtain ⟨_, rfl⟩ := h
  rfl

theorem level_eq (h : s.Grows t) : t.level = s.level := by
  obtain ⟨_, rfl⟩ := h
  rfl

end Sentence.Grows

namespace Lexicon

/-- Bodies along the chain are plain, and they call words of their own lexicon and of a lower rank only. -/
def Tiered (d : Lexicon) (rank : String → Nat) : Prop :=
  ∀ owner ∈ d.chain, ∀ entry ∈ owner.words, ∀ body ∈ entry.2.body?,
    plainCalls (fun called => owner.hasWord called && decide (rank called < rank entry.1)) body.calls = true

/-- The lexicon has every word to which a word of another one leads on a level. -/
def Hears (l d : Lexicon) (level : Level) (name : String) : Prop :=
  ∀ called, d.LeadsTo level name called → l.hasWord called = true

/-- Something breaks off at a word to which a word of another lexicon leads on a level, and which is missing. -/
def Misses (l d : Lexicon) (level : Level) (name : String) (trouble : Trouble) : Prop :=
  ∃ called, d.LeadsTo level name called ∧ l.hasWord called = false ∧
    trouble = .brokenOff (LexiconError.unknownWord l.name called).message

/-- The lexicon gives no other meaning to the words to which a word of another one leads on a level. -/
def Keeps (l d : Lexicon) (level : Level) (name : String) : Prop :=
  ∀ called, d.LeadsTo level name called → l.resolve called = d.resolve called ∨ l.hasWord called = false

variable {l d o : Lexicon} {level : Level} {name called : String}

theorem Hears.not_misses {trouble : Trouble} (h : l.Hears d level name) : ¬ l.Misses d level name trouble := by
  rintro ⟨called, hleads, hmissing, -⟩
  rw [h called hleads] at hmissing
  cases hmissing

theorem Keeps.of_uses (h : l.Keeps d level name) (huses : d.Uses level name called) : l.Keeps d level called :=
  fun further hleads => h further (.head huses hleads)

/-- A word is heard if the words that its body calls are there and are heard. -/
theorem Hears.of_uses (h : ∀ called, d.Uses level name called → l.hasWord called = true ∧ l.Hears d level called) :
    l.Hears d level name := by
  intro called hleads
  obtain ⟨first, huses, hreached⟩ := Relation.TransGen.head'_iff.mp hleads
  rcases Relation.reflTransGen_iff_eq_or_transGen.mp hreached with rfl | hlater
  · exact (h _ huses).1
  · exact (h first huses).2 called hlater

namespace Expandable

variable (hd : d.Expandable)
include hd

/-- The words to which a word of a lexicon of the chain leads are words of this lexicon, and mean the same there. -/
theorem resolve_of_leadsTo (ho : o ∈ d.chain) (hname : o.hasWord name = true) (h : d.LeadsTo level name called) :
    o.resolve called = d.resolve called ∧ o.hasWord called = true := by
  have hfound : o.hasWord called = true := by
    induction h with
    | single huses =>
        rw [Uses.congr (hd.resolve_inherited d.mem_chain_self ho hname)] at huses
        exact hd.hasWord_called ho huses
    | tail _ huses ih =>
        rw [Uses.congr (hd.resolve_inherited d.mem_chain_self ho ih)] at huses
        exact hd.hasWord_called ho huses
  exact ⟨(hd.resolve_inherited d.mem_chain_self ho hfound).symm, hfound⟩

end Expandable

end Lexicon

section Apply

variable {ω : Type} {i : Interpreter ω} {word : Word} {owner : Lexicon} {s : Sentence} {name : String} {args : List Arg}

/-- A word with a body for the level of a sentence runs it on the sentence. -/
theorem Word.apply_of_bodyOn {body : Body} (h : word.bodyOn s.level = some body) :
    word.apply i owner s name args = i.run body ⟨owner, s.level⟩ s args := by
  rcases s with ⟨l, _ | _, lexems⟩ <;> cases word <;> cases h <;> rfl

/-- Every other word is appended. -/
theorem Word.apply_of_no_body (h : word.bodyOn s.level = none) :
    word.apply i owner s name args = pure (s.append owner.name name args) := by
  rcases s with ⟨l, _ | _, lexems⟩ <;> cases word <;> first | rfl | cases h

end Apply

/-- Words of a rank below a bound extend a sentence whose lexicon has what they lead to, and else break off. -/
def Interpreter.Answers (i : Interpreter World) (d : Lexicon) (rank : String → Nat) (k : Nat) : Prop :=
  ∀ ⦃owner : Lexicon⦄ ⦃name : String⦄ ⦃word : Word⦄ (s : Sentence) (args : List Arg), rank name < k →
    d.resolve name = some (owner, word) → s.lexicon.Keeps d s.level name →
    Yields (s.lexicon.Misses d s.level name) (fun t => s.Grows t ∧ s.lexicon.Hears d s.level name)
      (word.apply i owner s name args)

namespace Script

section Evaluation

set_option linter.unusedSectionVars false

variable {ctx : Context} {i : Interpreter World} {known : String → Bool} {env : Env}

/-- The word extends every sentence of a lexicon and a level, and something more holds then. -/
def Serves (i : Interpreter World) (stop : Halt ScriptError → Prop) (fine : Prop) (l : Lexicon) (level : Level)
    (name : String) : Prop :=
  ∀ (s : Sentence) (args : List Arg), s.lexicon = l → s.level = level →
    Yields stop (fun t => s.Grows t ∧ fine) ((s.tryCall i name args).mapError ScriptError.vocabulary)

theorem newList_settles (items : List Arg) : Settles (fun _ => True) (newList items) :=
  (Settles.alloc .bare).ofAct.bind fun _ _ => .pure trivial

theorem headArgs_settles {e : Expr} (he : Settles (fun _ => True) (eval ctx i env e)) :
    Settles (fun _ => True) (headArgs ctx i env e) := by
  cases e
  case rest start => exact .pure trivial
  case given value =>
    simp only [eval] at he
    exact he.bind fun _ _ => .pure trivial
  all_goals exact he.bind fun _ _ => .pure trivial

variable (hknown : ∀ name, known name = true →
  Serves i (fun _ => False) True env.initializer.lexicon env.initializer.level name)
include hknown

mutual

theorem eval_settles : ∀ e : Expr, e.isPlain known = true → Settles (fun _ => True) (eval ctx i env e)
  | .null, _ | .bool _, _ | .number _, _ | .str _, _ | .arg _, _ => .pure trivial
  | .rest _, _ => newList_settles _
  | .record _, _ | .handler _ _, _ | .callback _, _ => (Settles.alloc _).ofAct.bind fun _ _ => .pure trivial
  | .sentence calls none none, h => (sentence_settles calls h).mono fun _ _ => trivial
  | .list items, h => (exprs_settle items h).bind fun _ _ => newList_settles _
  | .given value, h => eval_settles value h
  | .join parts, h | .sum parts, h => (exprs_settle parts h).bind fun _ _ => .pure trivial
  | .length value, h | .truthy value, h | .negation value, h => (eval_settles value h).bind fun _ _ => .pure trivial
  | .push list item, h => by
      rw [Expr.isPlain, Bool.and_eq_true] at h
      exact (eval_settles list h.1).bind fun _ _ => (eval_settles item h.2).bind fun _ _ => newList_settles _
  | .drop list index, h => by
      rw [Expr.isPlain, Bool.and_eq_true] at h
      exact (eval_settles list h.1).bind fun _ _ => (eval_settles index h.2).bind fun _ _ => newList_settles _
  | .nth list index, h => by
      rw [Expr.isPlain, Bool.and_eq_true] at h
      exact (eval_settles list h.1).bind fun _ _ => (eval_settles index h.2).bind fun _ _ => .pure trivial
  | .same left right, h => by
      rw [Expr.isPlain, Bool.and_eq_true, Bool.and_eq_true] at h
      exact (eval_settles left h.2.1).bind fun _ _ => (eval_settles right h.2.2).bind fun _ _ => .pure trivial
  | .choose condition yes no, h => by
      rw [Expr.isPlain, Bool.and_eq_true, Bool.and_eq_true] at h
      exact (eval_settles condition h.1).bind fun _ _ => (eval_settles yes h.2.1).bind fun _ _ =>
        (eval_settles no h.2.2).bind fun _ _ => .pure trivial

theorem exprs_settle : ∀ es : List Expr, plainExprs known es = true → Settles (fun _ => True) (evalArgs ctx i env es)
  | [], _ => .pure trivial
  | e :: es, h => by
      rw [plainExprs, Bool.and_eq_true] at h
      rw [evalArgs_cons]
      exact (headArgs_settles (eval_settles e h.1)).bind fun _ _ => (exprs_settle es h.2).bind fun _ _ => .pure trivial

theorem sentence_settles : ∀ calls : List Call, plainCalls known calls = true →
    Settles (fun a => ∃ i s, a = .sentence i s) (eval ctx i env (.sentence calls none none))
  | calls, h => by
      simp only [eval]
      have hwords : ∀ name ∈ wordsCalled calls, Serves i (fun _ => False) True env.initializer.empty.lexicon
        env.initializer.empty.level name := fun name hname => hknown name (known_of_wordsCalled h hname)
      exact (build_serves calls hwords h).bind fun s _ => (Settles.alloc .bare).ofAct.bind fun _ _ => .pure ⟨_, s, rfl⟩

/-- A script extends a sentence if the words that it calls on it do. -/
theorem build_serves : ∀ (calls : List Call) {stop : Halt ScriptError → Prop} {fine : String → Prop} {s : Sentence},
    (∀ name ∈ wordsCalled calls, Serves i stop (fine name) s.lexicon s.level name) → plainCalls known calls = true →
    Yields stop (fun t => s.Grows t ∧ ∀ name ∈ wordsCalled calls, fine name) (build ctx i env s calls)
  | [], _, _, s, _, _ => .pure ⟨.refl s, by simp [wordsCalled]⟩
  | c :: calls, _, _, s, hwords, h => by
      rw [plainCalls, Bool.and_eq_true] at h
      rw [wordsCalled_cons] at hwords ⊢
      refine (call_serves c (fun name hname => hwords name (List.mem_append_left _ hname)) h.1).bind
        fun t ⟨ht, hfirst⟩ => ?_
      have hlater := build_serves calls (s := t) (fun name hname => by
        rw [ht.lexicon_eq, ht.level_eq]
        exact hwords name (List.mem_append_right _ hname)) h.2
      exact hlater.mono fun u ⟨hu, hrest⟩ =>
        ⟨ht.trans hu, fun name hname => (List.mem_append.mp hname).elim (hfirst name) (hrest name)⟩

theorem call_serves : ∀ (c : Call) {stop : Halt ScriptError → Prop} {fine : String → Prop} {s : Sentence},
    (∀ name ∈ wordsCalled [c], Serves i stop (fine name) s.lexicon s.level name) → c.isPlain known = true →
    Yields stop (fun t => s.Grows t ∧ ∀ name ∈ wordsCalled [c], fine name) (call ctx i env s c)
  | .word name args, _, _, s, hwords, h => by
      rw [Call.isPlain, Bool.and_eq_true] at h
      refine (exprs_settle args h.2).yields.bind fun args _ => ?_
      exact (hwords name List.mem_cons_self s args rfl rfl).mono fun t ⟨ht, hfine⟩ =>
        ⟨ht, fun called hcalled => List.mem_singleton.mp hcalled ▸ hfine⟩
  | .append _ _ args, _, _, s, _, h => (exprs_settle args h).yields.bind fun _ _ =>
      .pure ⟨⟨_, rfl⟩, by simp [wordsCalled]⟩
  | .splice (.sentence calls none none), _, _, s, _, h => (sentence_settles calls h).yields.bind fun _ ⟨_, t, ha⟩ => by
      subst ha
      exact .pure ⟨⟨t.lexems, rfl⟩, by simp [wordsCalled]⟩

end

end Evaluation

/-- A run of a script breaks off at a word to which a word of another lexicon leads, and which is missing. -/
def Stuck (l d : Lexicon) (level : Level) (name : String) (halt : Halt ScriptError) : Prop :=
  ∃ called, d.LeadsTo level name called ∧ l.hasWord called = false ∧
    (halt = .error (.vocabulary (.unknownWord l.name called)) ∨
      halt = .trouble (.brokenOff (LexiconError.unknownWord l.name called).message))

variable {ctx : Context} {i : Interpreter World} {d : Lexicon} {rank : String → Nat} {k : Nat}

/-- A word that a body calls is looked up in the lexicon of the sentence. -/
theorem serves_of_answers (hi : i.Answers d rank k) {l owner : Lexicon} {level : Level} {name called : String}
    {word : Word} (hrank : rank called < k) (hresolve : d.resolve called = some (owner, word))
    (huses : d.Uses level name called) (hkeeps : l.Keeps d level name) :
    Serves i (Stuck l d level name) (l.hasWord called = true ∧ l.Hears d level called) l level called := by
  rintro s args rfl rfl
  rcases hkeeps called (.single huses) with hsame | hmissing
  · have hfound : s.lexicon.hasWord called = true := by
      rw [Lexicon.hasWord, hsame, hresolve]
      rfl
    have happly := hi s args hrank hresolve (hkeeps.of_uses huses)
    intro w
    simp only [Sentence.tryCall, hsame, hresolve, Attempt.mapError, Attempt.ofAct]
    rcases happly w with ⟨t, w', hrun, ht, hhears⟩ | ⟨trouble, w', hrun, further, hleads, hlacks, rfl⟩
    · exact .inl ⟨t, w', by rw [hrun], ht, hfound, hhears⟩
    · exact .inr ⟨_, w', by rw [hrun], further, .head huses hleads, hlacks, .inr rfl⟩
  · have hnone : s.lexicon.resolve called = none := by
      simpa [Lexicon.hasWord] using hmissing
    intro w
    refine .inr ⟨.error (.vocabulary (.unknownWord s.lexicon.name called)), w, ?_, called, .single huses, hmissing, .inl rfl⟩
    simp only [Sentence.tryCall, hnone, Attempt.mapError]
    rfl

/-- A script that is run in a function hands no error on. -/
theorem closed_answers {l : Lexicon} {level : Level} {name : String} {P : Sentence → Prop} {eval : Eval Sentence}
    (h : Yields (Stuck l d level name) P eval) : Yields (l.Misses d level name) P (closed eval) := by
  intro w
  rw [closed, Attempt.orBreakOff]
  rcases h w with ⟨t, w', hrun, ht⟩ | ⟨halt, w', hrun, called, hleads, hlacks, rfl | rfl⟩
  · exact .inl ⟨t, w', by rw [hrun], ht⟩
  · exact .inr ⟨_, w', by rw [hrun]; rfl, called, hleads, hlacks, rfl⟩
  · exact .inr ⟨_, w', by rw [hrun], called, hleads, hlacks, rfl⟩

/-- A body answers for its word if the interpreter of its calls answers for words of lower ranks. -/
theorem runBody_answers (hd : d.Expandable) (htiers : d.Tiered rank) (hi : i.Answers d rank k) {owner : Lexicon}
    {name : String} {word : Word} {body : Body} (s : Sentence) (args : List Arg) (hrank : rank name ≤ k)
    (hresolve : d.resolve name = some (owner, word)) (hbody : word.bodyOn s.level = some body)
    (hkeeps : s.lexicon.Keeps d s.level name) :
    Yields (s.lexicon.Misses d s.level name) (fun t => s.Grows t ∧ s.lexicon.Hears d s.level name)
      (runBody ctx i body ⟨owner, s.level⟩ s args) := by
  obtain ⟨howner, hword⟩ := Lexicon.resolve_eq_some hresolve
  have hplain := htiers owner howner _ (Entries.mem_of_get? hword) body (Word.body?_of_bodyOn hbody)
  have hlower : ∀ called, (owner.hasWord called && decide (rank called < rank name)) = true →
      owner.hasWord called = true ∧ rank called < k ∧ ∃ o word, d.resolve called = some (o, word) := by
    intro called hcalled
    rw [Bool.and_eq_true, decide_eq_true_eq] at hcalled
    obtain ⟨⟨o, word⟩, hfound⟩ := Option.isSome_iff_exists.mp hcalled.1
    have hsame := hd.resolve_inherited d.mem_chain_self howner hcalled.1
    exact ⟨hcalled.1, Nat.lt_of_lt_of_le hcalled.2 hrank, o, word, hsame.trans hfound⟩
  have huses : ∀ called ∈ wordsCalled body.calls, d.Uses s.level name called :=
    fun called hcalled => ⟨owner, word, body, hresolve, hbody, hcalled⟩
  -- sentences of its own the body builds with the lexicon that defines it, which has all it leads to
  have hown : ∀ called, (owner.hasWord called && decide (rank called < rank name)) = true →
      Serves i (fun _ => False) True owner s.level called := by
    intro called hcalled t args ht hlevel
    obtain ⟨hfound, hk, o, word, hresolve⟩ := hlower called hcalled
    have hleads : ∀ further, d.LeadsTo t.level called further → t.lexicon.resolve further = d.resolve further ∧
        t.lexicon.hasWord further = true := fun further h => ht ▸ hd.resolve_of_leadsTo howner hfound h
    have happly := hi t args hk hresolve fun further h => .inl (hleads further h).1
    have hthere : t.lexicon.resolve called = some (o, word) :=
      ht ▸ (hd.resolve_inherited d.mem_chain_self howner hfound).symm.trans hresolve
    intro w
    simp only [Sentence.tryCall, hthere, Attempt.mapError, Attempt.ofAct]
    rcases happly w with ⟨u, w', hrun, hu, -⟩ | ⟨_, _, _, hmisses⟩
    · exact .inl ⟨u, w', by rw [hrun], hu, trivial⟩
    · exact absurd hmisses (Lexicon.Hears.not_misses fun further h => (hleads further h).2)
  have hbuild : Yields (Stuck s.lexicon d s.level name) (fun t => s.Grows t ∧ s.lexicon.Hears d s.level name)
      (build ctx i ⟨⟨owner, s.level⟩, [], args⟩ s body.calls) := by
    have hwords : ∀ called ∈ wordsCalled body.calls, Serves i (Stuck s.lexicon d s.level name)
        (s.lexicon.hasWord called = true ∧ s.lexicon.Hears d s.level called) s.lexicon s.level called := by
      intro called hcalled
      obtain ⟨-, hk, o, word, hfound⟩ := hlower called (known_of_wordsCalled hplain hcalled)
      exact serves_of_answers hi hk hfound (huses called hcalled) hkeeps
    refine (build_serves hown body.calls hwords hplain).mono fun t hserved => ⟨hserved.1, .of_uses ?_⟩
    rintro called ⟨o, word', body', hresolve', hbody', hcalled⟩
    rw [hresolve] at hresolve'
    cases hresolve'
    rw [hbody] at hbody'
    cases hbody'
    exact hserved.2 called hcalled
  unfold runBody
  split
  · exact (Settles.write _).yields.bind fun _ _ => closed_answers hbuild
  · exact closed_answers hbuild

/-- Bodies that may go as deep as the rank of a word answer for it. -/
theorem interpreterWithin_answers (hd : d.Expandable) (htiers : d.Tiered rank) :
    ∀ k, (interpreterWithin ctx k).Answers d rank k
  | 0 => fun _ _ _ _ _ hrank => absurd hrank (Nat.not_lt_zero _)
  | k + 1 => fun owner name word s args hrank hresolve hkeeps => by
      cases hbody : word.bodyOn s.level with
      | some body =>
          rw [Word.apply_of_bodyOn hbody]
          exact runBody_answers hd htiers (interpreterWithin_answers hd htiers k) s args (Nat.le_of_lt_succ hrank)
            hresolve hbody hkeeps
      | none =>
          rw [Word.apply_of_no_body hbody]
          refine .pure ⟨⟨_, rfl⟩, .of_uses ?_⟩
          rintro called ⟨o, word', body, hresolve', hbody', -⟩
          rw [hresolve] at hresolve'
          cases hresolve'
          rw [hbody] at hbody'
          cases hbody'

end Script

end Parlance
