import Parlance.Proofs.Engine.Finishing
import Parlance.Proofs.Html.Vocabulary
import Parlance.Proofs.Lexicon.NormalForm

/-! The bodies of the built-in vocabulary. On the first level a compound develops into a single word of a lower layer,
and an alias appends a single lexem under its own name. Both only hand their arguments on, alone or in lists, and at
most put short sentences of attributes beside them; so arguments as documents have them come to such arguments. -/

namespace Parlance

/-- The words that bodies put into sentences of their own. -/
def Html.attributes : List String := ["attr", "prop"]

theorem Html.attributes_atoms {name : String} (hname : name ∈ attributes) : name ∈ atoms := by
  revert name
  decide

mutual

/-- Whether an expression hands arguments on, puts them into lists, or makes a sentence of attributes of them. -/
def Expr.isMild : Expr → Bool
  | .null | .bool _ | .number _ | .str _ | .arg _ | .rest _ => true
  | .list items | .join items => mildExprs items
  | .given value | .truthy value => value.isMild
  | .same left right => left.isMild && right.isMild
  | .choose condition yes no => condition.isMild && (yes.isMild && no.isMild)
  | .sentence calls none none => mildCalls calls
  | _ => false

def mildExprs : List Expr → Bool
  | [] => true
  | e :: es => e.isMild && mildExprs es

def Call.isMild : Call → Bool
  | .word name args => decide (name ∈ Html.attributes) && mildExprs args
  | _ => false

def mildCalls : List Call → Bool
  | [] => true
  | c :: cs => c.isMild && mildCalls cs

end

namespace Html

/-- Whether a word of the vocabulary is as simple as that: a compound calls a single word of a lower layer, and an alias
appends a single lexem under its own name. -/
def isMild (name : String) : Word → Bool
  | .atom => true
  | .compound ⟨_, [.word called args]⟩ =>
      decide (called ∈ names) && (decide (called ≠ "switchUse") && (decide (layer called < layer name) && mildExprs args))
  | .alias ⟨_, [.append other appended args]⟩ => decide (other = space ∧ appended = name) && mildExprs args
  | _ => false

theorem lexicon_mild : ∀ entry ∈ lexicon.words, isMild entry.1 entry.2 = true := by
  refine forall_words (P := fun name word => isMild name word = true) ?_ ?_ ?_ ?_ ?_ <;> decide

variable {name : String} {body : Body}

theorem resolve_eq {word : Word} (hword : lexicon.words.get? name = some word) :
    lexicon.resolve name = some (lexicon, word) := Lexicon.resolve_own hword

theorem compound_mild (hword : lexicon.words.get? name = some (.compound body)) : ∃ called es,
    body.calls = [.word called es] ∧ lexicon.hasWord called = true ∧ called ≠ "switchUse" ∧ layer called < layer name ∧
      mildExprs es = true := by
  have hmild := lexicon_mild _ (Entries.mem_of_get? hword)
  obtain ⟨label, calls⟩ := body
  unfold isMild at hmild
  split at hmild
  next heq => cases heq
  next heq =>
    cases heq
    simp only [Bool.and_eq_true, decide_eq_true_eq] at hmild
    exact ⟨_, _, rfl, by rw [hasWord_eq]; exact decide_eq_true hmild.1, hmild.2⟩
  next heq => cases heq
  next => cases hmild

theorem alias_mild (hword : lexicon.words.get? name = some (.alias body)) : ∃ es,
    body.calls = [.append space name es] ∧ mildExprs es = true := by
  have hmild := lexicon_mild _ (Entries.mem_of_get? hword)
  obtain ⟨label, calls⟩ := body
  unfold isMild at hmild
  split at hmild
  next heq => cases heq
  next heq => cases heq
  next heq =>
    cases heq
    simp only [Bool.and_eq_true, decide_eq_true_eq] at hmild
    obtain ⟨⟨rfl, rfl⟩, hes⟩ := hmild
    exact ⟨_, rfl, hes⟩
  next => cases hmild

/-- A lexem that only changes its node. -/
structure Attributive (S : Sentence → Prop) (lexem : Lexem) : Prop where
  space : lexem.space = Html.space
  name : lexem.name ∈ attributes
  args : ∀ a ∈ lexem.args, a.Documented S

/-- A kind of sentences to which all sentences of attributes belong. -/
def Admits (S : Sentence → Prop) : Prop := ∀ s : Sentence, (∀ lexem ∈ s.lexems, Attributive S lexem) → S s

end Html

namespace Script

open Html

variable {ctx : Context} {i : Interpreter World} {env : Env} {S : Sentence → Prop}

/-- A body is run on the first level, with arguments as documents have them. -/
structure EnvDocumented (S : Sentence → Prop) (env : Env) : Prop where
  initializer : env.initializer = ⟨Html.lexicon, .firstLevel⟩
  args : ∀ a ∈ env.args, a.Documented S

theorem newList_documented {items : List Arg} (h : ∀ a ∈ items, a.Documented S) :
    Settles (Arg.Documented S) (newList items) :=
  (Settles.alloc .bare).ofAct.bind fun _ _ => .pure (argsDocumented_iff.mpr h)

theorem headArgs_documented (hargs : ∀ a ∈ env.args, a.Documented S) {e : Expr}
    (he : Settles (Arg.Documented S) (eval ctx i env e)) :
    Settles (fun as => ∀ a ∈ as, a.Documented S) (headArgs ctx i env e) := by
  cases e
  case rest start => exact .pure fun a ha => hargs a (List.mem_of_mem_drop ha)
  case given value =>
    simp only [eval] at he
    refine he.bind fun x hx => .pure ?_
    split
    · simp
    · simpa using hx
  all_goals exact he.bind fun _ hx => .pure (by simpa using hx)

/-- A word for an attribute is appended. -/
theorem attribute_documented {s : Sentence} {name : String} {args : List Arg} (hs : s.lexicon = Html.lexicon)
    (hname : name ∈ attributes) (hargs : ∀ a ∈ args, a.Documented S) :
    Settles (fun t => ∃ lexem, t = { s with lexems := s.lexems ++ [lexem] } ∧ Attributive S lexem)
      (s.tryCall i name args) := by
  rw [tryCall_atom i hs (attributes_atoms hname)]
  exact .pure ⟨⟨Html.space, name, args⟩, rfl, rfl, hname, hargs⟩

mutual

theorem eval_documented (henv : EnvDocumented S env) (hS : Admits S) : ∀ e : Expr, e.isMild = true →
    Settles (Arg.Documented S) (eval ctx i env e)
  | .null, _ | .bool _, _ | .number _, _ | .str _, _ => .pure trivial
  | .arg index, _ => .pure (argAt_documented henv.args index)
  | .rest start, _ => newList_documented fun a ha => henv.args a (List.mem_of_mem_drop ha)
  | .sentence calls none none, h => by
      simp only [eval]
      refine (build_documented henv hS calls (by rw [henv.initializer]; rfl) h).bind fun t ht => ?_
      obtain ⟨added, rfl, hadded⟩ := ht
      exact (Settles.alloc .bare).ofAct.bind fun _ _ => .pure (hS _ hadded)
  | .list items, h => (exprs_documented henv hS items h).bind fun _ hitems => newList_documented hitems
  | .join parts, h => (exprs_documented henv hS parts h).bind fun _ _ => .pure trivial
  | .given value, h => eval_documented henv hS value h
  | .truthy value, h => (eval_documented henv hS value h).bind fun _ _ => .pure trivial
  | .same left right, h => by
      rw [Expr.isMild, Bool.and_eq_true] at h
      exact (eval_documented henv hS left h.1).bind fun _ _ =>
        (eval_documented henv hS right h.2).bind fun _ _ => .pure trivial
  | .choose condition yes no, h => by
      rw [Expr.isMild, Bool.and_eq_true, Bool.and_eq_true] at h
      refine (eval_documented henv hS condition h.1).bind fun _ _ =>
        (eval_documented henv hS yes h.2.1).bind fun _ hyes =>
          (eval_documented henv hS no h.2.2).bind fun _ hno => .pure ?_
      split
      · exact hyes
      · exact hno

theorem exprs_documented (henv : EnvDocumented S env) (hS : Admits S) : ∀ es : List Expr, mildExprs es = true →
    Settles (fun as => ∀ a ∈ as, a.Documented S) (evalArgs ctx i env es)
  | [], _ => .pure (by simp)
  | e :: es, h => by
      rw [mildExprs, Bool.and_eq_true] at h
      rw [evalArgs_cons]
      refine (headArgs_documented henv.args (eval_documented henv hS e h.1)).bind fun _ hhead =>
        (exprs_documented henv hS es h.2).bind fun _ hrest => .pure fun a ha => ?_
      exact (List.mem_append.mp ha).elim (hhead a) (hrest a)

theorem build_documented (henv : EnvDocumented S env) (hS : Admits S) : ∀ (calls : List Call) {s : Sentence},
    s.lexicon = Html.lexicon → mildCalls calls = true →
    Settles (fun t => ∃ added, t = { s with lexems := s.lexems ++ added } ∧ ∀ lexem ∈ added, Attributive S lexem)
      (build ctx i env s calls)
  | [], s, _, _ => .pure ⟨[], by cases s; simp, by simp⟩
  | .word name args :: calls, s, hs, h => by
      rw [mildCalls, Bool.and_eq_true, Call.isMild, Bool.and_eq_true, decide_eq_true_eq] at h
      have hcall : Settles (fun t => ∃ lexem, t = { s with lexems := s.lexems ++ [lexem] } ∧ Attributive S lexem)
          (call ctx i env s (.word name args)) := (exprs_documented henv hS args h.1.2).bind fun _ hargs =>
        (attribute_documented hs h.1.1 hargs).mapError _
      refine hcall.bind fun t ht => ?_
      obtain ⟨lexem, rfl, hlexem⟩ := ht
      refine (build_documented henv hS calls (s := { s with lexems := s.lexems ++ [lexem] }) hs h.2).mono fun t ht => ?_
      obtain ⟨added, rfl, hadded⟩ := ht
      exact ⟨lexem :: added, by simp, by simpa using ⟨hlexem, hadded⟩⟩

end

/-- What a body comes to, whether it is announced or not. -/
theorem runBody_settles {P : Sentence → Prop} {body : Body} {h : Initializer} {s : Sentence} {args : List Arg}
    (hbuild : Settles P (build ctx i ⟨h, [], args⟩ s body.calls)) : Settles P (runBody ctx i body h s args) := by
  unfold runBody
  split
  · exact (Settles.write _).bind fun _ _ => hbuild.orBreakOff _
  · exact hbuild.orBreakOff _

variable {depth : Nat} {s : Sentence} {name : String} {word : Word} {args : List Arg}

/-- A word of the vocabulary appends a single lexem of its name to a sentence of the first level. -/
theorem word_documented (hS : Admits S) (hs : s.level = .firstLevel) (hword : Html.lexicon.words.get? name = some word)
    (hargs : ∀ a ∈ args, a.Documented S) :
    Settles (fun t => ∃ args', t = s.append Html.space name args' ∧ ∀ a ∈ args', a.Documented S)
      (word.apply (interpreterWithin ctx (depth + 1)) Html.lexicon s name args) := by
  rcases word with _ | body | body
  · exact .pure ⟨args, rfl, hargs⟩
  · rw [Word.apply, hs]
    exact .pure ⟨args, rfl, hargs⟩
  · obtain ⟨es, hcalls, hes⟩ := alias_mild hword
    rw [Word.apply, hs]
    have henv : EnvDocumented S ⟨⟨Html.lexicon, .firstLevel⟩, [], args⟩ := ⟨rfl, hargs⟩
    refine runBody_settles ?_
    rw [hcalls]
    exact Yields.bind ((exprs_documented henv hS es hes).bind fun args' hargs' => .pure ⟨args', rfl, hargs'⟩)
      fun t ht => .pure ht

/-- A reference packs all arguments but the first into a list. -/
theorem switchUse_packed (hs : s.level = .firstLevel) (hword : Html.lexicon.words.get? "switchUse" = some word) :
    Settles (fun t => ∃ list, t = s.append Html.space "switchUse" [argAt args 0, .list list (args.drop 1)])
      (word.apply (interpreterWithin ctx (depth + 1)) Html.lexicon s "switchUse" args) := by
  let packing : Body := Html.body [.append Html.space "switchUse" [.arg 0, .list [.rest 1]]]
  have halias : ("switchUse", packing) ∈ Html.aliases := by simp [Html.aliases, packing]
  obtain rfl : Word.alias packing = word := Option.some.inj ((Html.get?_alias halias).symm.trans hword)
  rw [Word.apply, hs]
  change Settles _ (runBody ctx (interpreterWithin ctx depth) packing ⟨Html.lexicon, .firstLevel⟩ s args)
  refine runBody_settles ?_
  simp only [packing, Html.body, build, call, evalArgs, eval, newList, pure_bind, bind_pure, bind_assoc, List.append_nil]
  exact (Settles.alloc .bare).ofAct.bind fun list _ => .pure ⟨list, rfl⟩

/-- A compound of the vocabulary develops into a single word of a lower layer. -/
theorem develop_documented (hS : Admits S) {body : Body} (hword : Html.lexicon.words.get? name = some (.compound body))
    {space : String} (hargs : ∀ a ∈ args, a.Documented S) :
    Settles (fun t => ∃ called args', t.lexems = [⟨Html.space, called, args'⟩] ∧ Html.lexicon.hasWord called = true ∧
        called ≠ "switchUse" ∧ layer called < layer name ∧ ∀ a ∈ args', a.Documented S)
      (Html.lexicon.develop (interpreterWithin ctx (depth + 2)) ⟨space, name, args⟩) := by
  obtain ⟨called, es, hcalls, hhas, hne, hlayer, hes⟩ := compound_mild hword
  obtain ⟨⟨owner, found⟩, hresolve⟩ := Option.isSome_iff_exists.mp hhas
  obtain ⟨howner, hfound⟩ := Lexicon.resolve_eq_some hresolve
  obtain rfl : owner = Html.lexicon := List.mem_singleton.mp howner
  rw [Lexicon.develop, Lexicon.expand, resolve_eq hword]
  have henv : EnvDocumented S ⟨⟨Html.lexicon, .firstLevel⟩, [], args⟩ := ⟨rfl, hargs⟩
  refine Settles.ofAct (runBody_settles ?_)
  rw [hcalls]
  have hcall : Settles (fun t => ∃ args', t = (Sentence.empty Html.lexicon .firstLevel).append Html.space called args' ∧
      ∀ a ∈ args', a.Documented S) (call ctx (interpreterWithin ctx (depth + 1)) ⟨⟨Html.lexicon, .firstLevel⟩, [], args⟩
        (Sentence.empty Html.lexicon .firstLevel) (.word called es)) := by
    refine (exprs_documented henv hS es hes).bind fun args' hargs' => Settles.mapError ?_ _
    rw [Sentence.tryCall_resolved _ hresolve]
    exact (word_documented hS rfl hfound hargs').ofAct
  refine Yields.bind hcall fun t ht => .pure ?_
  obtain ⟨args', rfl, hargs'⟩ := ht
  exact ⟨called, args', rfl, hhas, hne, hlayer, hargs'⟩

end Script

end Parlance
