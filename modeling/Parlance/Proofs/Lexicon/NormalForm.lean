import Parlance.Proofs.Html.Vocabulary
import Parlance.Proofs.Lexicon.Translation
import Parlance.Script.Setup

/-! The normal form of sentences: nothing in them, however deep, is a lexem that translation applies anew. Where words
are defined once along the chain and their bodies, which call each other in layers, append no compounds by hand,
whatever a body comes to on the atomic level is normal if its arguments are. So translation succeeds, it ends in a
normal form, and it leaves a normal form as it is. -/

namespace Parlance

mutual

/-- In an argument, however deep, there are no lexems that translation applies anew. -/
def Arg.Normal (d : Lexicon) : Arg → Prop
  | .sentence _ ⟨_, _, lexems⟩ => LexemsNormal d lexems
  | .list _ items => ArgsNormal d items
  | _ => True

def ArgsNormal (d : Lexicon) : List Arg → Prop
  | [] => True
  | a :: as => a.Normal d ∧ ArgsNormal d as

def LexemsNormal (d : Lexicon) : List Lexem → Prop
  | [] => True
  | ⟨space, name, args⟩ :: ls => d.expands space name = false ∧ ArgsNormal d args ∧ LexemsNormal d ls

end

section Spare

variable (compound : String → Bool)

mutual

/-- Whether no compound is appended by hand, without a call, in a plain expression. -/
def Expr.spares : Expr → Bool
  | .sentence calls _ _ => callsSpare calls
  | .list items | .join items | .sum items => exprsSpare items
  | .given value | .length value | .truthy value | .negation value => value.spares
  | .push list item => list.spares && item.spares
  | .drop list index | .nth list index => list.spares && index.spares
  | .same left right => left.spares && right.spares
  | .choose condition yes no => condition.spares && (yes.spares && no.spares)
  | _ => true

def exprsSpare : List Expr → Bool
  | [] => true
  | e :: es => e.spares && exprsSpare es

/-- Whether no compound is appended by hand by a plain call. -/
def Call.spares : Call → Bool
  | .word _ args => exprsSpare args
  | .append _ name args => !compound name && exprsSpare args
  | .splice value => value.spares
  | _ => true

def callsSpare : List Call → Bool
  | [] => true
  | c :: cs => c.spares && callsSpare cs

end

end Spare

/-- Words are defined once along a chain, and their bodies call words of their own lexicon and of a lower rank only, and
append no compounds by hand. -/
structure Lexicon.Layered (d : Lexicon) (rank : String → Nat) : Prop where
  words : (d.chain.flatMap ownWords).Nodup
  bodies : ∀ owner ∈ d.chain, ∀ entry ∈ owner.words, ∀ body ∈ entry.2.body?,
    plainCalls (fun called => owner.hasWord called && decide (rank called < rank entry.1)) body.calls = true ∧
      callsSpare d.develops body.calls = true

/-- All words of a chain rank below a bound. -/
def Lexicon.Ranked (d : Lexicon) (rank : String → Nat) (bound : Nat) : Prop :=
  ∀ owner ∈ d.chain, ∀ name ∈ owner.ownWords, rank name < bound

variable {ctx : Context} {d : Lexicon} {rank : String → Nat}

theorem argsNormal_iff {as : List Arg} : ArgsNormal d as ↔ ∀ a ∈ as, a.Normal d := by
  induction as with
  | nil => simp [ArgsNormal]
  | cons a as ih => simp [ArgsNormal, ih]

theorem lexemsNormal_append {ls ms : List Lexem} :
    LexemsNormal d (ls ++ ms) ↔ LexemsNormal d ls ∧ LexemsNormal d ms := by
  induction ls with
  | nil => simp [LexemsNormal]
  | cons l ls ih =>
      rcases l with ⟨space, name, args⟩
      simp [LexemsNormal, ih, and_assoc]

theorem Arg.normal_sentence {i : Identity} {s : Sentence} :
    (Arg.sentence i s).Normal d ↔ LexemsNormal d s.lexems := by
  cases s
  rfl

theorem Arg.Normal.items {a : Arg} (h : a.Normal d) : ∀ item ∈ a.items, item.Normal d := by
  cases a with
  | list i items => exact argsNormal_iff.mp h
  | _ => simp [Arg.items, Arg.asList?]

theorem argAt_normal {as : List Arg} (h : ∀ a ∈ as, a.Normal d) (index : Nat) : (argAt as index).Normal d := by
  rw [argAt, List.getD_eq_getElem?_getD]
  cases hat : as[index]? with
  | none => trivial
  | some a => exact h a (List.mem_of_getElem? hat)

/-- A sentence has been extended by lexems in normal form. -/
def Extended (d : Lexicon) (s t : Sentence) : Prop :=
  ∃ added, t = ⟨s.lexicon, s.level, s.lexems ++ added⟩ ∧ LexemsNormal d added

namespace Extended

variable {s t u : Sentence}

theorem refl (s : Sentence) : Extended d s s := ⟨[], by cases s; simp, trivial⟩

theorem trans (h : Extended d s t) (h' : Extended d t u) : Extended d s u := by
  obtain ⟨added, rfl, hadded⟩ := h
  obtain ⟨more, rfl, hmore⟩ := h'
  exact ⟨added ++ more, by simp, lexemsNormal_append.mpr ⟨hadded, hmore⟩⟩

theorem append {space name : String} {args : List Arg} (hkept : d.expands space name = false)
    (hargs : ∀ a ∈ args, a.Normal d) : Extended d s (s.append space name args) :=
  ⟨_, rfl, hkept, argsNormal_iff.mpr hargs, trivial⟩

theorem lexicon_eq (h : Extended d s t) : t.lexicon = s.lexicon := by
  obtain ⟨_, rfl, _⟩ := h
  rfl

theorem level_eq (h : Extended d s t) : t.level = s.level := by
  obtain ⟨_, rfl, _⟩ := h
  rfl

theorem lexems {l : Lexicon} {level : Level} (h : Extended d (Sentence.empty l level) t) : LexemsNormal d t.lexems := by
  obtain ⟨_, rfl, h⟩ := h
  exact h

end Extended

/-- The action ends with a result that is as it should be. -/
abbrev Settles {ε σ α : Type} (P : α → Prop) (m : EStateM ε σ α) : Prop := Yields (fun _ => False) P m

theorem Settles.yields {ε σ α : Type} {P : α → Prop} {stop : ε → Prop} {m : EStateM ε σ α} (h : Settles P m) :
    Yields stop P m := fun s => (h s).imp_right fun hnever => by
  obtain ⟨_, _, _, hstop⟩ := hnever
  exact hstop.elim

theorem Settles.ofAct {ε α : Type} {P : α → Prop} {m : Act World α} (h : Settles P m) :
    Settles P (.ofAct m : Attempt ε World α) := by
  intro w
  obtain ⟨x, w', hm, hx⟩ | ⟨_, _, _, hstop⟩ := h w
  · exact .inl ⟨x, w', by rw [Attempt.ofAct, hm], hx⟩
  · exact hstop.elim

theorem Settles.mapError {ε ε' α : Type} {P : α → Prop} {m : Attempt ε World α} (h : Settles P m) (f : ε → ε') :
    Settles P (m.mapError f) := by
  intro w
  obtain ⟨x, w', hm, hx⟩ | ⟨_, _, _, hstop⟩ := h w
  · exact .inl ⟨x, w', by rw [Attempt.mapError, hm], hx⟩
  · exact hstop.elim

theorem Settles.orBreakOff {ε α : Type} {P : α → Prop} {m : Attempt ε World α} (h : Settles P m)
    (message : ε → String) : Settles P (m.orBreakOff message) := by
  intro w
  obtain ⟨x, w', hm, hx⟩ | ⟨_, _, _, hstop⟩ := h w
  · exact .inl ⟨x, w', by rw [Attempt.orBreakOff, hm], hx⟩
  · exact hstop.elim

/-- Identities are drawn and lines are written in any world. -/
theorem Settles.alloc (cell : Cell) : Settles (fun _ => True) (World.alloc cell) := fun _ => .inl ⟨_, _, rfl, trivial⟩

theorem Settles.write (line : String) : Settles (fun _ => True) (World.write line) := fun _ => .inl ⟨_, _, rfl, trivial⟩

/-- Where a body that is run on the atomic level ends in a normal form, if its word is of a low rank. -/
def Interpreter.Normalizes (i : Interpreter World) (d : Lexicon) (rank : String → Nat) (k : Nat) : Prop :=
  ∀ {owner : Lexicon} {name : String} {word : Word} {body : Body} {s : Sentence} {args : List Arg},
    s.lexicon ∈ d.chain → s.level = .atomic → owner ∈ s.lexicon.chain → owner.words.get? name = some word →
    word.body? = some body → rank name < k → (∀ a ∈ args, a.Normal d) →
    Settles (Extended d s) (i.run body ⟨owner, .atomic⟩ s args)

namespace Script

variable {i : Interpreter World} {k : Nat} {known : String → Bool} {env : Env}

theorem headArgs_normal (hargs : ∀ a ∈ env.args, a.Normal d) {e : Expr}
    (he : Settles (Arg.Normal d) (eval ctx i env e)) :
    Settles (fun as => ∀ a ∈ as, a.Normal d) (headArgs ctx i env e) := by
  cases e
  case rest start => exact .pure fun a ha => hargs a (List.mem_of_mem_drop ha)
  case given value =>
    simp only [eval] at he
    refine he.bind fun x hx => .pure ?_
    split
    · simp
    · simpa using hx
  all_goals exact he.bind fun _ hx => .pure (by simpa using hx)

theorem newList_normal {items : List Arg} (h : ∀ a ∈ items, a.Normal d) : Settles (Arg.Normal d) (newList items) :=
  (Settles.alloc .bare).ofAct.bind fun _ _ => .pure (argsNormal_iff.mpr h)

/-- A word that is known is one of the chain, and of a low rank. -/
theorem tryCall_normal (hd : d.Layered rank) (hi : i.Normalizes d rank k) {s : Sentence} {name : String}
    {args : List Arg} (hs : s.lexicon ∈ d.chain) (hlevel : s.level = .atomic) (hname : s.lexicon.hasWord name = true)
    (hrank : rank name < k) (hargs : ∀ a ∈ args, a.Normal d) : Settles (Extended d s) (s.tryCall i name args) := by
  obtain ⟨⟨owner, word⟩, hresolve⟩ := Option.isSome_iff_exists.mp hname
  obtain ⟨howner, hword⟩ := Lexicon.resolve_eq_some hresolve
  unfold Sentence.tryCall
  rw [hresolve]
  refine Settles.ofAct ?_
  rcases word with _ | body | body
  · refine .pure (.append ?_ hargs)
    have hfound := Lexicon.resolve_of_get? hd.words d.mem_chain_self (Lexicon.mem_chain_trans d hs howner) hword
    rw [Lexicon.expands, Lexicon.develops, Lexicon.kindOf, hfound]
    simp [Word.kind]
  all_goals
    rw [Word.apply, hlevel]
    exact hi hs hlevel howner hword rfl hrank hargs

/-- A body of the chain is run on the atomic level with arguments in normal form, and knows words of a low rank. -/
structure EnvNormal (i : Interpreter World) (d : Lexicon) (rank : String → Nat) (k : Nat) (known : String → Bool)
    (env : Env) : Prop where
  layered : d.Layered rank
  runs : i.Normalizes d rank k
  own : env.initializer.lexicon ∈ d.chain
  atomic : env.initializer.level = .atomic
  finds : ∀ name, known name = true → env.initializer.lexicon.hasWord name = true
  low : ∀ name, known name = true → rank name < k
  args : ∀ a ∈ env.args, a.Normal d

mutual

theorem eval_normal (henv : EnvNormal i d rank k known env) : ∀ e : Expr, e.isPlain known = true →
    e.spares d.develops = true → Settles (Arg.Normal d) (eval ctx i env e)
  | .null, _, _ | .bool _, _, _ | .number _, _, _ | .str _, _, _ => .pure trivial
  | .arg index, _, _ => .pure (argAt_normal henv.args index)
  | .rest start, _, _ => newList_normal fun a ha => henv.args a (List.mem_of_mem_drop ha)
  | .record content, _, _ => (Settles.alloc _).ofAct.bind fun _ _ => .pure trivial
  | .handler _ _, _, _ => (Settles.alloc _).ofAct.bind fun _ _ => .pure trivial
  | .callback _, _, _ => (Settles.alloc _).ofAct.bind fun _ _ => .pure trivial
  | .sentence calls none none, h, hspares => (sentence_normal henv calls h hspares).mono fun a ⟨i, s, ha, hs⟩ => by
      subst ha
      exact Arg.normal_sentence.mpr hs
  | .list items, h, hspares => (exprs_normal henv items h hspares).bind fun _ hitems => newList_normal hitems
  | .given value, h, hspares => eval_normal henv value h hspares
  | .join parts, h, hspares => (exprs_normal henv parts h hspares).bind fun _ _ => .pure trivial
  | .sum parts, h, hspares => (exprs_normal henv parts h hspares).bind fun _ _ => .pure trivial
  | .push list item, h, hspares => by
      rw [Expr.isPlain, Bool.and_eq_true] at h
      rw [Expr.spares, Bool.and_eq_true] at hspares
      refine (eval_normal henv list h.1 hspares.1).bind fun x hx =>
        (eval_normal henv item h.2 hspares.2).bind fun y hy => newList_normal fun a ha => ?_
      rcases List.mem_append.mp ha with ha | ha
      · exact hx.items a ha
      · exact List.mem_singleton.mp ha ▸ hy
  | .drop list index, h, hspares => by
      rw [Expr.isPlain, Bool.and_eq_true] at h
      rw [Expr.spares, Bool.and_eq_true] at hspares
      exact (eval_normal henv list h.1 hspares.1).bind fun x hx =>
        (eval_normal henv index h.2 hspares.2).bind fun _ _ =>
          newList_normal fun a ha => hx.items a (List.mem_of_mem_eraseIdx ha)
  | .nth list index, h, hspares => by
      rw [Expr.isPlain, Bool.and_eq_true] at h
      rw [Expr.spares, Bool.and_eq_true] at hspares
      exact (eval_normal henv list h.1 hspares.1).bind fun x hx =>
        (eval_normal henv index h.2 hspares.2).bind fun _ _ => .pure (argAt_normal hx.items _)
  | .length list, h, hspares => (eval_normal henv list h hspares).bind fun _ _ => .pure trivial
  | .truthy value, h, hspares => (eval_normal henv value h hspares).bind fun _ _ => .pure trivial
  | .negation value, h, hspares => (eval_normal henv value h hspares).bind fun _ _ => .pure trivial
  | .same left right, h, hspares => by
      rw [Expr.isPlain, Bool.and_eq_true, Bool.and_eq_true] at h
      rw [Expr.spares, Bool.and_eq_true] at hspares
      exact (eval_normal henv left h.2.1 hspares.1).bind fun _ _ =>
        (eval_normal henv right h.2.2 hspares.2).bind fun _ _ => .pure trivial
  | .choose condition yes no, h, hspares => by
      rw [Expr.isPlain, Bool.and_eq_true, Bool.and_eq_true] at h
      rw [Expr.spares, Bool.and_eq_true, Bool.and_eq_true] at hspares
      refine (eval_normal henv condition h.1 hspares.1).bind fun _ _ =>
        (eval_normal henv yes h.2.1 hspares.2.1).bind fun _ hyes =>
          (eval_normal henv no h.2.2 hspares.2.2).bind fun _ hno => .pure ?_
      split
      · exact hyes
      · exact hno

theorem exprs_normal (henv : EnvNormal i d rank k known env) : ∀ es : List Expr, plainExprs known es = true →
    exprsSpare d.develops es = true → Settles (fun as => ∀ a ∈ as, a.Normal d) (evalArgs ctx i env es)
  | [], _, _ => .pure (by simp)
  | e :: es, h, hspares => by
      rw [plainExprs, Bool.and_eq_true] at h
      rw [exprsSpare, Bool.and_eq_true] at hspares
      rw [evalArgs_cons]
      refine (headArgs_normal henv.args (eval_normal henv e h.1 hspares.1)).bind fun _ hhead =>
        (exprs_normal henv es h.2 hspares.2).bind fun _ hrest => .pure fun a ha => ?_
      exact (List.mem_append.mp ha).elim (hhead a) (hrest a)

theorem sentence_normal (henv : EnvNormal i d rank k known env) : ∀ calls : List Call, plainCalls known calls = true →
    callsSpare d.develops calls = true → Settles (fun a => ∃ i s, a = .sentence i s ∧ LexemsNormal d s.lexems)
      (eval ctx i env (.sentence calls none none))
  | calls, h, hspares => by
      simp only [eval]
      refine (build_normal henv calls henv.own henv.atomic henv.finds h hspares).bind fun s hs => ?_
      exact (Settles.alloc .bare).ofAct.bind fun _ _ => .pure ⟨_, s, rfl, hs.lexems⟩

theorem build_normal (henv : EnvNormal i d rank k known env) : ∀ (calls : List Call) {s : Sentence},
    s.lexicon ∈ d.chain → s.level = .atomic →
    (∀ name, known name = true → s.lexicon.hasWord name = true) → plainCalls known calls = true →
    callsSpare d.develops calls = true → Settles (Extended d s) (build ctx i env s calls)
  | [], s, _, _, _, _, _ => .pure (.refl s)
  | c :: calls, s, hs, hlevel, hfinds, h, hspares => by
      rw [plainCalls, Bool.and_eq_true] at h
      rw [callsSpare, Bool.and_eq_true] at hspares
      refine (call_normal henv c hs hlevel hfinds h.1 hspares.1).bind fun t ht => ?_
      have hsame := ht.lexicon_eq
      have hrest := build_normal henv calls (hsame ▸ hs) (ht.level_eq.trans hlevel) (hsame ▸ hfinds) h.2 hspares.2
      exact hrest.mono fun _ hu => ht.trans hu

theorem call_normal (henv : EnvNormal i d rank k known env) : ∀ (c : Call) {s : Sentence},
    s.lexicon ∈ d.chain → s.level = .atomic →
    (∀ name, known name = true → s.lexicon.hasWord name = true) → c.isPlain known = true →
    c.spares d.develops = true → Settles (Extended d s) (call ctx i env s c)
  | .word name args, s, hs, hlevel, hfinds, h, hspares => by
      rw [Call.isPlain, Bool.and_eq_true] at h
      exact (exprs_normal henv args h.2 hspares).bind fun _ hargs =>
        (tryCall_normal henv.layered henv.runs hs hlevel (hfinds name h.1) (henv.low name h.1) hargs).mapError _
  | .append space name args, s, _, _, _, h, hspares => by
      rw [Call.spares, Bool.and_eq_true] at hspares
      refine (exprs_normal henv args h hspares.2).bind fun _ hargs => .pure (.append ?_ hargs)
      rw [Lexicon.expands, (Bool.not_eq_true' _).mp hspares.1, Bool.and_false]
  | .splice (.sentence calls none none), s, _, _, _, h, hspares =>
      (sentence_normal henv calls h hspares).bind fun _ ⟨_, t, ha, ht⟩ => by
        subst ha
        exact .pure ⟨t.lexems, rfl, ht⟩

end

/-- Bodies that may call each other deeper than their words rank end in normal forms. -/
theorem interpreterWithin_normalizes (hd : d.Layered rank) (depth : Nat) :
    (interpreterWithin ctx depth).Normalizes d rank depth := by
  induction depth with
  | zero => exact fun _ _ _ _ _ hrank _ => absurd hrank (Nat.not_lt_zero _)
  | succ depth ih =>
      intro owner name word body s args hs hlevel howner hword hbody hrank hargs
      have hmem := Lexicon.mem_chain_trans d hs howner
      obtain ⟨hplain, hspares⟩ := hd.bodies owner hmem _ (Entries.mem_of_get? hword) body hbody
      have henv : EnvNormal (interpreterWithin ctx depth) d rank depth
          (fun called => owner.hasWord called && decide (rank called < rank name)) ⟨⟨owner, .atomic⟩, [], args⟩ := by
        refine ⟨hd, ih, hmem, rfl, fun called hcalled => ?_, fun called hcalled => ?_, hargs⟩
        · exact ((Bool.and_eq_true _ _).mp hcalled).1
        · have hlower : rank called < rank name := by simpa using ((Bool.and_eq_true _ _).mp hcalled).2
          exact Nat.lt_of_lt_of_le hlower (Nat.le_of_lt_succ hrank)
      have hfinds : ∀ called, (owner.hasWord called && decide (rank called < rank name)) = true →
          s.lexicon.hasWord called = true := by
        intro called hcalled
        obtain ⟨⟨o, word'⟩, hresolve⟩ := Option.isSome_iff_exists.mp (henv.finds called hcalled)
        obtain ⟨ho, hget⟩ := Lexicon.resolve_eq_some hresolve
        exact Lexicon.hasWord_of_get? (Lexicon.mem_chain_trans _ howner ho) hget
      have hbuild : Settles (Extended d s)
          (closed (build ctx (interpreterWithin ctx depth) ⟨⟨owner, .atomic⟩, [], args⟩ s body.calls)) :=
        (build_normal henv body.calls hs hlevel hfinds hplain hspares).orBreakOff _
      change Settles (Extended d s) (runBody ctx (interpreterWithin ctx depth) body ⟨owner, .atomic⟩ s args)
      unfold runBody
      split
      · exact (Settles.write _).bind fun _ _ => hbuild
      · exact hbuild

end Script

/-- An argument with nothing in it that is translated: a scalar, or one that is known by its identity only. -/
def Arg.Bare : Arg → Prop
  | .sentence _ _ | .list _ _ => False
  | _ => True

mutual

/-- What an argument says, whatever the identities of the lists and sentences in it, and whatever their lexicons. -/
def Arg.said : Arg → Arg
  | .sentence _ ⟨_, _, lexems⟩ => .sentence ⟨0⟩ ⟨Lexicon.new "" none, .atomic, lexemsSaid lexems⟩
  | .list _ items => .list ⟨0⟩ (argsSaid items)
  | a => a

def argsSaid : List Arg → List Arg
  | [] => []
  | a :: as => a.said :: argsSaid as

def lexemsSaid : List Lexem → List Lexem
  | [] => []
  | ⟨space, name, args⟩ :: ls => ⟨space, name, argsSaid args⟩ :: lexemsSaid ls

end

section Relation

variable (i : Interpreter World) (d : Lexicon)

mutual

/-- The second argument is the first one, translated to the atomic level. -/
inductive ArgTranslated : Arg → Arg → Prop
  | bare {a : Arg} (hbare : a.Bare) : ArgTranslated a a
  | sentence {j j' : Identity} {s s' : Sentence} (hlexems : LexemsTranslated s.lexems s'.lexems) :
      ArgTranslated (.sentence j s) (.sentence j' s')
  | list {j j' : Identity} {items items' : List Arg} (hitems : ArgsTranslated items items') :
      ArgTranslated (.list j items) (.list j' items')

inductive ArgsTranslated : List Arg → List Arg → Prop
  | nil : ArgsTranslated [] []
  | cons {a a' : Arg} {as as' : List Arg} (hhead : ArgTranslated a a') (htail : ArgsTranslated as as') :
      ArgsTranslated (a :: as) (a' :: as')

/-- The second list of lexems is the first one, translated to the atomic level: compounds of the chain are replaced by
what their bodies have added to a sentence, and every other lexem stays in its place, with its arguments translated. -/
inductive LexemsTranslated : List Lexem → List Lexem → Prop
  | nil : LexemsTranslated [] []
  | kept {space name : String} {args args' : List Arg} {ls ls' : List Lexem} (hkept : d.expands space name = false)
      (hargs : ArgsTranslated args args') (htail : LexemsTranslated ls ls') :
      LexemsTranslated (⟨space, name, args⟩ :: ls) (⟨space, name, args'⟩ :: ls')
  | expanded {space name : String} {owner : Lexicon} {body : Body} {args args' : List Arg}
      {before part ls ls' : List Lexem} {w w' : World} (hexpands : d.expands space name = true)
      (hword : d.resolve name = some (owner, .compound body))
      (hargs : ArgsTranslated args args')
      (hrun : i.run body ⟨owner, .atomic⟩ ⟨d, .atomic, before⟩ args' w = .ok ⟨d, .atomic, before ++ part⟩ w')
      (htail : LexemsTranslated ls ls') :
      LexemsTranslated (⟨space, name, args⟩ :: ls) (part ++ ls')

end

end Relation

theorem LexemsTranslated.append {i : Interpreter World} {ls ls' ms ms' : List Lexem} (h : LexemsTranslated i d ls ls')
    (hm : LexemsTranslated i d ms ms') : LexemsTranslated i d (ls ++ ms) (ls' ++ ms') := by
  match h with
  | .nil => exact hm
  | .kept hkept hargs htail => exact .kept hkept hargs (htail.append hm)
  | .expanded hexpands hword hargs hrun htail =>
      rw [List.cons_append, List.append_assoc]
      exact .expanded hexpands hword hargs hrun (htail.append hm)

/-- What an action ends with is a result of it. -/
theorem Settles.run {ε σ α : Type} {P : α → Prop} {m : EStateM ε σ α} (h : Settles P m) :
    Settles (fun x => P x ∧ ∃ s s', m s = .ok x s') m := by
  intro s
  obtain ⟨x, s', hm, hx⟩ | ⟨_, _, _, hstop⟩ := h s
  · exact .inl ⟨x, s', hm, hx, s, s', hm⟩
  · exact hstop.elim

section Translating

variable {depth : Nat}

/-- A lexem whose arguments are translated is copied or applied anew, and either way comes to a normal form. -/
theorem say_normal (hd : d.Layered rank) (hdepth : d.Ranked rank depth) {space name : String} {args args' : List Arg}
    {before : List Lexem} (hnormal : ArgsNormal d args')
    (hargs : ArgsTranslated (Script.interpreterWithin ctx depth) d args args') :
    Settles (fun t => ∃ added, t = ⟨d, .atomic, before ++ added⟩ ∧ LexemsNormal d added ∧
        LexemsTranslated (Script.interpreterWithin ctx depth) d [⟨space, name, args⟩] added)
      (d.say (Script.interpreterWithin ctx depth) ⟨d, .atomic, before⟩ space name args') := by
  cases hexpands : d.expands space name with
  | false =>
      rw [Lexicon.say_kept hexpands]
      exact .pure ⟨_, rfl, ⟨hexpands, hnormal, trivial⟩, .kept hexpands hargs .nil⟩
  | true =>
      obtain ⟨owner, body, hresolve, hsay⟩ :=
        Lexicon.say_expanded (i := Script.interpreterWithin ctx depth) hexpands
      obtain ⟨howner, hword⟩ := Lexicon.resolve_eq_some hresolve
      have hrun : Settles (Extended d ⟨d, .atomic, before⟩)
          ((Script.interpreterWithin ctx depth).run body ⟨owner, .atomic⟩ ⟨d, .atomic, before⟩ args') :=
        Script.interpreterWithin_normalizes hd depth d.mem_chain_self rfl howner hword rfl
          (hdepth owner howner name (Lexicon.mem_ownWords_of_get? hword)) (argsNormal_iff.mp hnormal)
      rw [hsay]
      refine (Settles.run hrun).mono fun t ⟨⟨added, ht, hadded⟩, w, w', hw⟩ => ?_
      subst ht
      refine ⟨added, rfl, hadded, ?_⟩
      rw [← added.append_nil]
      exact .expanded hexpands hresolve hargs hw .nil

mutual

theorem translateLexems_normal (hd : d.Layered rank) (hdepth : d.Ranked rank depth) : ∀ (lexems before : List Lexem),
    Settles (fun t => ∃ added, t = ⟨d, .atomic, before ++ added⟩ ∧ LexemsNormal d added ∧
        LexemsTranslated (Script.interpreterWithin ctx depth) d lexems added)
      (d.translateLexems (Script.interpreterWithin ctx depth) .atomic ⟨d, .atomic, before⟩ lexems)
  | [], before => by
      rw [Lexicon.translateLexems]
      exact .pure ⟨[], by rw [List.append_nil], trivial, .nil⟩
  | ⟨space, name, args⟩ :: lexems, before => by
      rw [Lexicon.translateLexems_cons]
      refine (translateArgs_normal hd hdepth args).bind fun args' ⟨hnormal, hargs⟩ =>
        (say_normal hd hdepth hnormal hargs).bind fun t ⟨added, ht, hadded, hsaid⟩ => ?_
      subst ht
      refine (translateLexems_normal hd hdepth lexems (before ++ added)).mono fun t ⟨more, ht, hmore, hrest⟩ => ?_
      exact ⟨added ++ more, by rw [ht, List.append_assoc], lexemsNormal_append.mpr ⟨hadded, hmore⟩, hsaid.append hrest⟩

theorem translateArgs_normal (hd : d.Layered rank) (hdepth : d.Ranked rank depth) : ∀ args : List Arg,
    Settles (fun args' => ArgsNormal d args' ∧ ArgsTranslated (Script.interpreterWithin ctx depth) d args args')
      (d.translateArgs (Script.interpreterWithin ctx depth) .atomic args)
  | [] => by
      rw [Lexicon.translateArgs]
      exact .pure ⟨trivial, .nil⟩
  | a :: as => by
      rw [Lexicon.translateArgs]
      exact (translateArg_normal hd hdepth a).bind fun _ ha => (translateArgs_normal hd hdepth as).bind fun _ has =>
        .pure ⟨⟨ha.1, has.1⟩, .cons ha.2 has.2⟩

theorem translateArg_normal (hd : d.Layered rank) (hdepth : d.Ranked rank depth) : ∀ a : Arg,
    Settles (fun a' => a'.Normal d ∧ ArgTranslated (Script.interpreterWithin ctx depth) d a a')
      (d.translateArg (Script.interpreterWithin ctx depth) .atomic a)
  | .sentence _ ⟨_, _, lexems⟩ => by
      rw [Lexicon.translateArg, Lexicon.translate]
      refine (translateLexems_normal hd hdepth lexems []).bind fun s ⟨added, hs, hadded, hlexems⟩ => ?_
      subst hs
      exact (Script.fresh_yields _).bind fun _ _ => .pure ⟨Arg.normal_sentence.mpr hadded, .sentence hlexems⟩
  | .list _ items => by
      rw [Lexicon.translateArg]
      exact (translateArgs_normal hd hdepth items).bind fun _ hitems =>
        (Script.fresh_yields _).bind fun _ _ => .pure ⟨hitems.1, .list hitems.2⟩
  | .null | .bool _ | .number _ | .str _ | .data _ | .render _ | .handler _ | .callback _ | .component _ | .hook _ =>
      .pure ⟨trivial, .bare trivial⟩

end

end Translating

section Settled

variable {i : Interpreter World}

mutual

/-- What is normal says the same when it is translated. -/
theorem lexemsSaid_of_normal : ∀ (ls : List Lexem) {ls' : List Lexem}, LexemsTranslated i d ls ls' → LexemsNormal d ls →
    lexemsSaid ls' = lexemsSaid ls
  | [], _, .nil, _ => rfl
  | ⟨_, _, args⟩ :: ls, _, .kept _ hargs htail, hnormal => by
      rw [lexemsSaid, lexemsSaid, argsSaid_of_normal args hargs hnormal.2.1, lexemsSaid_of_normal ls htail hnormal.2.2]
  | ⟨_, _, _⟩ :: _, _, .expanded hexpands _ _ _ _, hnormal => by
      rw [hnormal.1] at hexpands
      cases hexpands

theorem argsSaid_of_normal : ∀ (as : List Arg) {as' : List Arg}, ArgsTranslated i d as as' → ArgsNormal d as →
    argsSaid as' = argsSaid as
  | [], _, .nil, _ => rfl
  | a :: as, _, .cons hhead htail, hnormal => by
      rw [argsSaid, argsSaid, argSaid_of_normal a hhead hnormal.1, argsSaid_of_normal as htail hnormal.2]

theorem argSaid_of_normal : ∀ (a : Arg) {a' : Arg}, ArgTranslated i d a a' → a.Normal d → a'.said = a.said
  | _, _, .bare _, _ => rfl
  | .sentence _ ⟨_, _, lexems⟩, .sentence _ ⟨_, _, _⟩, .sentence hlexems, hnormal => by
      rw [Arg.said, Arg.said, lexemsSaid_of_normal lexems hlexems hnormal]
  | .list _ items, _, .list hitems, hnormal => by
      rw [Arg.said, Arg.said, argsSaid_of_normal items hitems hnormal]

end

end Settled

/-- Every sentence can be translated to the atomic level by a layered lexicon. What comes of it is in normal form: its
lexems are those of the sentence in their order, with their arguments translated, and in the place of each compound of
the chain what its body has come to. Translated again it says the same. -/
theorem translation_normalizes (ctx : Context) {d : Lexicon} {rank : String → Nat} {depth : Nat} (hd : d.Layered rank)
    (hdepth : d.Ranked rank depth) (s : Sentence) (w : World) : ∃ t w',
    d.translate (Script.interpreterWithin ctx depth) .atomic s w = .ok t w' ∧ LexemsNormal d t.lexems ∧
    LexemsTranslated (Script.interpreterWithin ctx depth) d s.lexems t.lexems ∧
    ∀ v, ∃ t' v', d.translate (Script.interpreterWithin ctx depth) .atomic t v = .ok t' v' ∧
      lexemsSaid t'.lexems = lexemsSaid t.lexems := by
  have htranslates : ∀ (s : Sentence) (w : World), ∃ t w',
      d.translate (Script.interpreterWithin ctx depth) .atomic s w = .ok t w' ∧ LexemsNormal d t.lexems ∧
      LexemsTranslated (Script.interpreterWithin ctx depth) d s.lexems t.lexems := by
    rintro ⟨l, level, lexems⟩ w
    rw [Lexicon.translate]
    obtain ⟨t, w', hrun, added, ht, hnormal, htranslated⟩ | ⟨_, _, _, hstop⟩ :=
      translateLexems_normal hd hdepth lexems [] w
    · subst ht
      exact ⟨_, w', hrun, hnormal, htranslated⟩
    · exact hstop.elim
  obtain ⟨t, w', hrun, hnormal, htranslated⟩ := htranslates s w
  refine ⟨t, w', hrun, hnormal, htranslated, fun v => ?_⟩
  obtain ⟨t', v', hagain, -, hsame⟩ := htranslates t v
  exact ⟨t', v', hagain, lexemsSaid_of_normal _ hsame hnormal⟩

namespace Html

/-- How far a word of the built-in vocabulary is from the atoms. -/
def layer (name : String) : Nat :=
  if name ∈ atoms then 0
  else if name ∈ aliases.map Prod.fst then 1
  else if name ∈ ["textInput", "passwordInput", "linkCss"] then 3
  else 2

theorem lexicon_layered : lexicon.Layered layer := by
  refine ⟨lexicon_expandable.words, ?_⟩
  rw [chain_lexicon, List.forall_mem_singleton, hasWord_eq]
  refine forall_words (P := fun name word => ∀ body ∈ word.body?,
    plainCalls (fun called => decide (called ∈ names) && decide (layer called < layer name)) body.calls = true ∧
      callsSpare lexicon.develops body.calls = true) ?_ ?_ ?_ ?_ ?_ <;> rw [lexicon_eq] <;> decide

theorem lexicon_ranked : lexicon.Ranked layer Script.depthLimit := by
  intro _ _ name _
  unfold layer
  split_ifs <;> decide

/-- An input in a section, and a section of another vocabulary with an opaque argument and a blank in a list. -/
def fields : Sentence :=
  let input : Sentence := ⟨lexicon, .firstLevel, [⟨space, "textInput", [.str "name"]⟩]⟩
  let blank : Sentence := ⟨lexicon, .firstLevel, [⟨space, "nbsp", []⟩]⟩
  ⟨lexicon, .firstLevel, [⟨space, "section", [.sentence ⟨1⟩ input]⟩,
    ⟨"other", "section", [.render ⟨2⟩, .list ⟨3⟩ [.sentence ⟨4⟩ blank]]⟩]⟩

end Html

/-- The built-in vocabulary is layered, and it translates such sentences. -/
theorem translation_normalizes_fields : ∃ t w',
    Html.lexicon.translate (Script.interpreter .html) .atomic Html.fields World.new = .ok t w' ∧
    LexemsNormal Html.lexicon t.lexems ∧
    LexemsTranslated (Script.interpreter .html) Html.lexicon Html.fields.lexems t.lexems ∧
    ∀ v, ∃ t' v', Html.lexicon.translate (Script.interpreter .html) .atomic t v = .ok t' v' ∧
      lexemsSaid t'.lexems = lexemsSaid t.lexems :=
  translation_normalizes .html Html.lexicon_layered Html.lexicon_ranked Html.fields World.new

end Parlance
