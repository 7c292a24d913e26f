import Parlance.Proofs.Lexicon.Agreement
import Parlance.Proofs.Lexicon.Concord
import Parlance.Proofs.Sentence.Likeness

/-! Sentences of the first level beside the same sentences spelt out. A program of plain calls may be built on
the first level, where a compound stays a single lexem, or on the atomic level, where its body runs at once. What
comes of it on the atomic level is the other with compounds replaced by what their bodies come to; and what a body
comes to when it is run later, on an empty sentence of its own lexicon, is itself spelt out by what it came to at
once, on the sentence that was being built. -/

namespace Parlance

section Relation

variable (ctx : Context) (d : Lexicon)

mutual

/-- The second argument is the first with compounds spelt out in the sentences inside it. -/
inductive ArgSpelt : Arg → Arg → Prop
  | null : ArgSpelt .null .null
  | bool {value : Bool} : ArgSpelt (.bool value) (.bool value)
  | number {value : Number} : ArgSpelt (.number value) (.number value)
  | str {value : String} : ArgSpelt (.str value) (.str value)
  | sentence {i i' : Identity} {s s' : Sentence} (hlexems : LexemsSpelt s.lexems s'.lexems) :
      ArgSpelt (.sentence i s) (.sentence i' s')
  | list {i i' : Identity} {items items' : List Arg} (hitems : List.Forall₂ ArgSpelt items items') :
      ArgSpelt (.list i items) (.list i' items')
  | data {i i' : Identity} : ArgSpelt (.data i) (.data i')
  | handler {i i' : Identity} : ArgSpelt (.handler i) (.handler i')
  | callback {i i' : Identity} : ArgSpelt (.callback i) (.callback i')

/-- The second list of lexems is the first with some compounds of the chain spelt out: in the place of each
stand the lexems that its development comes to, whatever identities are drawn for it. -/
inductive LexemsSpelt : List Lexem → List Lexem → Prop
  | nil : LexemsSpelt [] []
  | kept {space name : String} {args args' : List Arg} {ls ls' : List Lexem}
      (hargs : List.Forall₂ ArgSpelt args args') (htail : LexemsSpelt ls ls') :
      LexemsSpelt (⟨space, name, args⟩ :: ls) (⟨space, name, args'⟩ :: ls')
  | spelt {owner : Lexicon} {name : String} {args : List Arg} {body : Body} {development : World → Sentence}
      {part ls ls' : List Lexem} (howner : owner ∈ d.chain)
      (hword : owner.words.get? name = some (.compound body))
      (hrun : ∀ w, ∃ w', (Script.interpreter ctx).run body ⟨owner, .firstLevel⟩
        (Sentence.empty owner .firstLevel) args w = .ok (development w) w')
      (hpart : ∀ w, LexemsSpelt (development w).lexems part) (htail : LexemsSpelt ls ls') :
      LexemsSpelt (⟨owner.name, name, args⟩ :: ls) (part ++ ls')

end

end Relation

variable {ctx : Context} {d : Lexicon}

theorem ArgSpelt.conforms {a a' : Arg} (h : ArgSpelt ctx d a a') : Conforms (ArgSpelt ctx d) a a' := by
  cases h with
  | number => exact .number rfl
  | list hitems => exact .list hitems
  | _ => constructor

theorem spelt_conformity (ctx : Context) (d : Lexicon) : Conformity (ArgSpelt ctx d) :=
  ⟨.null, fun h => h.conforms⟩

namespace ArgSpelt

variable {a a' x x' : Arg}

theorem toScalar_eq (h : ArgSpelt ctx d a a') : a.toScalar? = a'.toScalar? := by cases h <;> rfl

theorem isNull_eq (h : ArgSpelt ctx d a a') : a.isNull = a'.isNull := by cases h <;> rfl

theorem asIndex_eq (h : ArgSpelt ctx d a a') : a.asIndex = a'.asIndex := by cases h <;> rfl

/-- Comparison with a scalar looks at no identity. -/
theorem same_eq (h : ArgSpelt ctx d a a') (hx : ArgSpelt ctx d x x')
    (hscalar : a.toScalar?.isSome = true ∨ x.toScalar?.isSome = true) : a.same x = a'.same x' := by
  cases h <;> cases hx <;> first | rfl | simp [Arg.toScalar?] at hscalar

end ArgSpelt

namespace LexemsSpelt

theorem append {ls ls' ms ms' : List Lexem} (h : LexemsSpelt ctx d ls ls') (hm : LexemsSpelt ctx d ms ms') :
    LexemsSpelt ctx d (ls ++ ms) (ls' ++ ms') := by
  match h with
  | .nil => exact hm
  | .kept hargs htail => exact .kept hargs (htail.append hm)
  | .spelt howner hword hrun hpart htail =>
      rw [List.cons_append, List.append_assoc]
      exact .spelt howner hword hrun hpart (htail.append hm)

theorem singleton {space name : String} {args args' : List Arg} (h : List.Forall₂ (ArgSpelt ctx d) args args') :
    LexemsSpelt ctx d [⟨space, name, args⟩] [⟨space, name, args'⟩] := .kept h .nil

end LexemsSpelt

mutual

/-- Whether an argument holds no render functions, components or hooks, however deep. -/
def Arg.isSpoken : Arg → Bool
  | .sentence _ ⟨_, _, lexems⟩ => lexemsSpoken lexems
  | .list _ items => argsSpoken items
  | .render _ | .component _ | .hook _ => false
  | _ => true

def argsSpoken : List Arg → Bool
  | [] => true
  | a :: as => a.isSpoken && argsSpoken as

def lexemsSpoken : List Lexem → Bool
  | [] => true
  | ⟨_, _, args⟩ :: ls => argsSpoken args && lexemsSpoken ls

end

section Spoken

variable {ctx : Context} {d : Lexicon}

mutual

/-- What is spoken is spelt out by itself. -/
theorem Arg.spelt_self : ∀ a : Arg, a.isSpoken = true → ArgSpelt ctx d a a
  | .null, _ => .null
  | .bool _, _ => .bool
  | .number _, _ => .number
  | .str _, _ => .str
  | .sentence _ ⟨_, _, lexems⟩, h => .sentence (lexems_spelt_self lexems h)
  | .list _ items, h => .list (args_spelt_self items h)
  | .data _, _ => .data
  | .handler _, _ => .handler
  | .callback _, _ => .callback

theorem args_spelt_self : ∀ args : List Arg, argsSpoken args = true → List.Forall₂ (ArgSpelt ctx d) args args
  | [], _ => .nil
  | a :: as, h => by
      rw [argsSpoken, Bool.and_eq_true] at h
      exact .cons (a.spelt_self h.1) (args_spelt_self as h.2)

theorem lexems_spelt_self : ∀ lexems : List Lexem, lexemsSpoken lexems = true → LexemsSpelt ctx d lexems lexems
  | [], _ => .nil
  | ⟨_, _, args⟩ :: ls, h => by
      rw [lexemsSpoken, Bool.and_eq_true] at h
      exact .kept (args_spelt_self args h.1) (lexems_spelt_self ls h.2)

end

end Spoken

/-- A lexicon whose words are called on two sentences side by side: any with call-only bodies if both sentences stand
on the first level, and one of the chain if the second is spelt out. -/
inductive Lexicon.Paired (d : Lexicon) : Level → Lexicon → Prop
  | same {m : Lexicon} (hbodies : ∀ owner ∈ m.chain, owner.CallOnly) : Paired d .firstLevel m
  | within {m : Lexicon} (hm : m ∈ d.chain) : Paired d .atomic m

/-- Known words mean in both lexicons what they mean in a third one. A word that this one lacks may be asked for where
mistakes are allowed. -/
def Lexicon.Shares (fails : Prop) (known : String → Prop) (m l l' : Lexicon) : Prop :=
  ∀ name, known name → (m.Concurs l name ∧ m.Concurs l' name) ∧ (m.resolve name = none → fails ∧ l.name = l'.name)

namespace Lexicon.Paired

variable {level : Level} {m o : Lexicon}

theorem callOnly (hd : d.Expandable) (h : Paired d level m) (ho : o ∈ m.chain) : o.CallOnly := by
  cases h with
  | same hbodies => exact hbodies o ho
  | within hm => exact hd.bodies o (mem_chain_trans d hm ho)

theorem mem_chain (h : Paired d .atomic m) : m ∈ d.chain := by
  cases h with
  | within hm => exact hm

theorem self (h : Paired d level m) (ho : o ∈ m.chain) : Paired d level o := by
  cases h with
  | same hbodies => exact .same fun o' ho' => hbodies o' (mem_chain_trans m ho ho')
  | within hm => exact .within (mem_chain_trans d hm ho)

end Lexicon.Paired

theorem Lexicon.Shares.mono {fails : Prop} {known known' : String → Prop} {m l l' : Lexicon}
    (h : Shares fails known m l l') (hknown : ∀ name, known' name → known name) : Shares fails known' m l l' :=
  fun name hname => h name (hknown name hname)

/-- The words that a plain body of a lexicon calls are words of every lexicon that inherits it. -/
theorem Lexicon.Shares.of_called {owner m l l' : Lexicon} {calls : List Call} (howner : owner ∈ m.chain)
    (hplain : plainCalls owner.hasWord calls = true)
    (hconcurs : ∀ name ∈ wordsCalled calls, m.Concurs l name ∧ m.Concurs l' name) :
    Shares False (· ∈ wordsCalled calls) m l l' := by
  intro name hname
  refine ⟨hconcurs name hname, fun hnone => ?_⟩
  obtain ⟨⟨o, word⟩, hresolve⟩ := Option.isSome_iff_exists.mp (known_of_wordsCalled hplain hname)
  obtain ⟨ho, hword⟩ := resolve_eq_some hresolve
  have hfound : m.hasWord name = true := hasWord_of_get? (mem_chain_trans m howner ho) hword
  rw [hasWord, hnone] at hfound
  cases hfound

/-- A lexicon shares its own words with itself. -/
theorem Lexicon.Shares.self (owner : Lexicon) : Shares False (owner.hasWord · = true) owner owner owner := by
  refine fun name hname => ⟨⟨.refl _ _, .refl _ _⟩, fun hnone => ?_⟩
  have hfound : owner.hasWord name = true := hname
  rw [hasWord, hnone] at hfound
  cases hfound

/-- Two sentences that are extended side by side by words of a lexicon, the first on the first level. -/
structure Abreast (d m : Lexicon) (level : Level) (s s' : Sentence) : Prop where
  paired : Lexicon.Paired d level m
  left : s.level = .firstLevel
  right : s'.level = level

/-- What two sentences have been extended by, side by side: the second has got the same, spelt out. -/
def Lengthened (ctx : Context) (d : Lexicon) (s s' x y : Sentence) : Prop :=
  ∃ added added', x = ⟨s.lexicon, s.level, s.lexems ++ added⟩ ∧ y = ⟨s'.lexicon, s'.level, s'.lexems ++ added'⟩ ∧
    LexemsSpelt ctx d added added'

namespace Lengthened

variable {s s' x y x' y' : Sentence} {level : Level}

theorem refl (s s' : Sentence) : Lengthened ctx d s s' s s' :=
  ⟨[], [], by cases s; simp, by cases s'; simp, .nil⟩

theorem trans (h : Lengthened ctx d s s' x y) (h' : Lengthened ctx d x y x' y') :
    Lengthened ctx d s s' x' y' := by
  obtain ⟨added, added', rfl, rfl, hadded⟩ := h
  obtain ⟨more, more', rfl, rfl, hmore⟩ := h'
  exact ⟨added ++ more, added' ++ more', by simp, by simp, hadded.append hmore⟩

theorem append {space name : String} {args args' : List Arg} (h : List.Forall₂ (ArgSpelt ctx d) args args') :
    Lengthened ctx d s s' (s.append space name args) (s'.append space name args') :=
  ⟨_, _, rfl, rfl, .singleton h⟩

theorem splice (h : LexemsSpelt ctx d x.lexems y.lexems) : Lengthened ctx d s s' (s.splice x) (s'.splice y) :=
  ⟨_, _, rfl, rfl, h⟩

theorem lexems {l l' : Lexicon} {k k' : Level}
    (h : Lengthened ctx d (Sentence.empty l k) (Sentence.empty l' k') x y) :
    LexemsSpelt ctx d x.lexems y.lexems := by
  obtain ⟨_, _, rfl, rfl, hadded⟩ := h
  exact hadded

theorem lexicon_eq (h : Lengthened ctx d s s' x y) : x.lexicon = s.lexicon ∧ y.lexicon = s'.lexicon := by
  obtain ⟨_, _, rfl, rfl, _⟩ := h
  exact ⟨rfl, rfl⟩

theorem level_eq (h : Lengthened ctx d s s' x y) : y.level = s'.level := by
  obtain ⟨_, _, _, rfl, _⟩ := h
  rfl

theorem abreast {m : Lexicon} (h : Lengthened ctx d s s' x y) (hs : Abreast d m level s s') :
    Abreast d m level x y := by
  obtain ⟨_, _, rfl, rfl, _⟩ := h
  exact ⟨hs.paired, hs.left, hs.right⟩

end Lengthened

/-- The second interpreter runs a body as the first does, spelt out if it is on the atomic level. -/
def Interpreter.Spells (ctx : Context) (d : Lexicon) (i i' : Interpreter World) : Prop :=
  ∀ {level : Level} {s s' : Sentence} {m owner : Lexicon} {body : Body} {args args' : List Arg},
    Abreast d m level s s' → owner ∈ m.chain →
    (∀ name ∈ wordsCalled body.calls, m.Concurs s.lexicon name ∧ m.Concurs s'.lexicon name) →
    plainCalls owner.hasWord body.calls = true → List.Forall₂ (ArgSpelt ctx d) args args' →
    ActsAgree (Lengthened ctx d s s') (i.run body ⟨owner, .firstLevel⟩ s args)
      (i'.run body ⟨owner, level⟩ s' args')

section Words

variable {i i' : Interpreter World} (hd : d.Expandable) (hspells : i.Spells ctx d i')
  (hdevelops : (Script.interpreter ctx).Spells ctx d i')
include hd hdevelops

omit hd in
/-- A compound that is left as it is on the first level, and run at once on the atomic level. -/
theorem compound_spelt {owner : Lexicon} {body : Body} {name : String} {s s' : Sentence} {args args' : List Arg}
    (hlevel : s'.level = .atomic) (hconcurs : ∀ name ∈ wordsCalled body.calls, owner.Concurs s'.lexicon name)
    (hmem : owner ∈ d.chain) (hword : owner.words.get? name = some (.compound body))
    (hplain : plainCalls owner.hasWord body.calls = true) (hargs : List.Forall₂ (ArgSpelt ctx d) args args') :
    ActsAgree (Lengthened ctx d s s') (pure (s.append owner.name name args) : Act World Sentence)
      (i'.run body ⟨owner, .atomic⟩ s' args') := by
  have habreast : Abreast d owner .atomic (Sentence.empty owner .firstLevel) s' := ⟨.within hmem, rfl, hlevel⟩
  have hboth : ∀ name ∈ wordsCalled body.calls, owner.Concurs owner name ∧ owner.Concurs s'.lexicon name :=
    fun name hname => ⟨.refl _ _, hconcurs name hname⟩
  intro w w' _
  have hends := fun v => hdevelops habreast owner.mem_chain_self hboth hplain hargs v w' trivial
  generalize i'.run body ⟨owner, .atomic⟩ s' args' w' = r' at hends
  cases r' with
  | error err w₁ =>
      have hend := hends w
      generalize (Script.interpreter ctx).run body ⟨owner, .firstLevel⟩ (Sentence.empty owner .firstLevel) args w =
        r at hend
      cases hend with
      | error hfails _ => exact hfails.elim
      | stopped hstop => exact hstop.elim
      | stopped' hstop => exact .stopped' hstop
  | ok y w₁ =>
      have hruns : ∀ v, ∃ x, (∃ v', (Script.interpreter ctx).run body ⟨owner, .firstLevel⟩
          (Sentence.empty owner .firstLevel) args v = .ok x v') ∧
          Lengthened ctx d (Sentence.empty owner .firstLevel) s' x y := by
        intro v
        have hend := hends v
        generalize (Script.interpreter ctx).run body ⟨owner, .firstLevel⟩ (Sentence.empty owner .firstLevel) args v =
          r at hend
        cases hend with
        | ok hresult _ => exact ⟨_, ⟨_, rfl⟩, hresult⟩
        | stopped hstop => exact hstop.elim
      choose development hrun hlengthened using hruns
      -- whatever world the body is run in, it comes to the same once it is spelt out
      obtain ⟨_, part, _, rfl, _⟩ := hlengthened w
      refine .ok ⟨[⟨owner.name, name, args⟩], part, rfl, rfl, ?_⟩ trivial
      rw [← part.append_nil]
      refine .spelt hmem hword hrun (fun v => ?_) .nil
      obtain ⟨_, part', hx, hy, hadded⟩ := hlengthened v
      rw [List.append_cancel_left (congrArg Sentence.lexems hy), hx]
      exact hadded

include hspells

/-- A word does the same to two sentences abreast of each other. -/
theorem apply_spelt {level : Level} {m owner : Lexicon} {word : Word} {name : String} {s s' : Sentence}
    {args args' : List Arg} (hs : Abreast d m level s s') (howner : owner ∈ m.chain)
    (hword : owner.words.get? name = some word)
    (hconcurs : ∀ body, word.body? = some body → ∀ name ∈ wordsCalled body.calls,
      m.Concurs s.lexicon name ∧ m.Concurs s'.lexicon name)
    (hargs : List.Forall₂ (ArgSpelt ctx d) args args') :
    ActsAgree (Lengthened ctx d s s') (word.apply i owner s name args) (word.apply i' owner s' name args') := by
  have hcallOnly := hs.paired.callOnly hd howner
  rcases word with _ | body | body
  · exact .pure (.append hargs)
  · have hplain := hcallOnly.plain hword rfl
    cases level with
    | firstLevel =>
        rw [Word.apply, Word.apply, hs.left, hs.right]
        exact .pure (.append hargs)
    | atomic =>
        have hm := hs.paired.mem_chain
        rw [Word.apply, Word.apply, hs.left, hs.right]
        exact compound_spelt hdevelops hs.right (fun called hcalled => hd.concurs_owner hm howner
          (known_of_wordsCalled hplain hcalled) (hconcurs body rfl called hcalled).2)
          (Lexicon.mem_chain_trans d hm howner) hword hplain hargs
  · rw [Word.apply, Word.apply, hs.left, hs.right]
    exact hspells hs howner (hconcurs body rfl) (hcallOnly.plain hword rfl) hargs

variable {fails : Prop} {level : Level} {known : String → Prop}

theorem tryCall_spelt {m : Lexicon} {name : String} {s s' : Sentence} {args args' : List Arg}
    (hs : Abreast d m level s s') (hshares : Lexicon.Shares fails known m s.lexicon s'.lexicon) (hname : known name)
    (hargs : List.Forall₂ (ArgSpelt ctx d) args args') :
    AttemptsAgree fails (Lengthened ctx d s s') (s.tryCall i name args) (s'.tryCall i' name args') := by
  obtain ⟨⟨hleft, hright⟩, hnone⟩ := hshares name hname
  unfold Sentence.tryCall
  rw [hleft.resolve_eq, hright.resolve_eq]
  rcases hfound : m.resolve name with _ | ⟨owner, word⟩
  · obtain ⟨hfails, hsame⟩ := hnone hfound
    rw [hsame]
    exact .throw hfails _
  · obtain ⟨howner, hword⟩ := Lexicon.resolve_eq_some hfound
    exact (apply_spelt hd hspells hdevelops hs howner hword (fun body hbody called hcalled =>
      ⟨hleft.of_called hfound hbody hcalled, hright.of_called hfound hbody hcalled⟩) hargs).ofAct

end Words

namespace Script

/-- Environments of two scripts that run side by side. -/
structure EnvsSpelt (ctx : Context) (d : Lexicon) (fails : Prop) (level : Level) (known : String → Bool) (m : Lexicon)
    (env env' : Env) : Prop where
  abreast : Abreast d m level env.initializer.empty env'.initializer.empty
  shares : Lexicon.Shares fails (known · = true) m env.initializer.lexicon env'.initializer.lexicon
  args : List.Forall₂ (ArgSpelt ctx d) env.args env'.args

/-- What an expression stands for in a list of arguments. -/
def headArgs (ctx : Context) (i : Interpreter World) (env : Env) (e : Expr) : Eval (List Arg) :=
  match e with
  | .rest start => pure (env.args.drop start)
  | .given value => do
      let value ← eval ctx i env value
      pure (if value.isNull then [] else [value])
  | e => do pure [← eval ctx i env e]

theorem evalArgs_cons {i : Interpreter World} {env : Env} {e : Expr} {es : List Expr} :
    evalArgs ctx i env (e :: es) = (do
      let head ← headArgs ctx i env e
      let rest ← evalArgs ctx i env es
      pure (head ++ rest)) := by
  cases e
  case given value =>
    simp only [evalArgs, headArgs, bind_assoc, pure_bind]
    refine bind_congr fun x => bind_congr fun xs => ?_
    split <;> rfl
  all_goals simp only [evalArgs, headArgs, bind_assoc, pure_bind, List.singleton_append]

section Evaluation

variable {i i' : Interpreter World} {fails : Prop} {level : Level} {known : String → Bool} {m : Lexicon}
  {env env' : Env}

/-- Values of one expression, the second spelt out; if the expression always stands for a scalar, they are one. -/
def ValuesSpelt (ctx : Context) (d : Lexicon) (e : Expr) (x y : Arg) : Prop :=
  ArgSpelt ctx d x y ∧ (e.isScalar = true → x.toScalar?.isSome = true)

theorem newList_spelt {items items' : List Arg} (h : List.Forall₂ (ArgSpelt ctx d) items items') :
    AttemptsAgree fails (ArgSpelt ctx d) (newList items) (newList items') :=
  (ActsAgree.alloc .bare .bare).ofAct.bind fun _ _ _ => .pure (.list h)

theorem headArgs_spelt (hargs : List.Forall₂ (ArgSpelt ctx d) env.args env'.args) {e : Expr}
    (he : AttemptsAgree fails (ArgSpelt ctx d) (eval ctx i env e) (eval ctx i' env' e)) :
    AttemptsAgree fails (List.Forall₂ (ArgSpelt ctx d)) (headArgs ctx i env e) (headArgs ctx i' env' e) := by
  cases e
  case rest start => exact .pure (List.forall₂_drop start hargs)
  case given value =>
    simp only [eval] at he
    refine he.bind fun x y hxy => .pure ?_
    rw [hxy.isNull_eq]
    split
    · exact .nil
    · exact .cons hxy .nil
  all_goals exact he.bind fun _ _ hxy => .pure (.cons hxy .nil)

theorem eraseIdx_spelt {items items' : List Arg} (h : List.Forall₂ (ArgSpelt ctx d) items items') (index : Nat) :
    List.Forall₂ (ArgSpelt ctx d) (items.eraseIdx index) (items'.eraseIdx index) := by
  rw [List.eraseIdx_eq_take_drop_succ, List.eraseIdx_eq_take_drop_succ]
  exact List.rel_append (List.forall₂_take index h) (List.forall₂_drop (index + 1) h)

/-- The sum of those arguments that are numbers. -/
theorem sum_spelt {xs ys : List Arg} (h : List.Forall₂ (ArgSpelt ctx d) xs ys) (add : Number → Arg → Number)
    (hadd : ∀ total {x y}, ArgSpelt ctx d x y → add total x = add total y) (total : Number) :
    xs.foldl add total = ys.foldl add total := by
  induction h generalizing total with
  | nil => rfl
  | cons head _ ih => rw [List.foldl_cons, List.foldl_cons, hadd total head, ih]

theorem texts_spelt {xs ys : List Arg} (h : List.Forall₂ (ArgSpelt ctx d) xs ys) :
    xs.map Arg.toText = ys.map Arg.toText := by
  induction h with
  | nil => rfl
  | cons head _ ih => rw [List.map_cons, List.map_cons, (spelt_conformity ctx d).toText_eq head, ih]

variable (hd : d.Expandable) (hspells : i.Spells ctx d i') (hdevelops : (Script.interpreter ctx).Spells ctx d i')
  (henv : EnvsSpelt ctx d fails level known m env env')
include hd hspells hdevelops henv

set_option linter.unusedSectionVars false

mutual

theorem eval_spelt : ∀ e : Expr, e.isPlain known = true →
    AttemptsAgree fails (ValuesSpelt ctx d e) (eval ctx i env e) (eval ctx i' env' e)
  | .null, _ => .pure ⟨.null, fun _ => rfl⟩
  | .bool _, _ => .pure ⟨.bool, fun _ => rfl⟩
  | .number _, _ => .pure ⟨.number, fun _ => rfl⟩
  | .str _, _ => .pure ⟨.str, fun _ => rfl⟩
  | .arg index, _ => .pure ⟨(spelt_conformity ctx d).argAt henv.args index, nofun⟩
  | .rest start, _ => (newList_spelt (List.forall₂_drop start henv.args)).mono fun _ _ h => ⟨h, nofun⟩
  | .record content, _ => (ActsAgree.alloc _ _).ofAct.bind fun _ _ _ => .pure ⟨.data, nofun⟩
  | .handler _ _, _ => (ActsAgree.alloc _ _).ofAct.bind fun _ _ _ => .pure ⟨.handler, nofun⟩
  | .callback _, _ => (ActsAgree.alloc _ _).ofAct.bind fun _ _ _ => .pure ⟨.callback, nofun⟩
  | .sentence calls none none, h => (sentence_spelt calls h).mono fun _ _ hxy => by
      obtain ⟨_, _, _, _, rfl, rfl, hlexems⟩ := hxy
      exact ⟨.sentence hlexems, nofun⟩
  | .list items, h => (exprs_spelt items h).bind fun _ _ hitems =>
      (newList_spelt hitems).mono fun _ _ h => ⟨h, nofun⟩
  | .given value, h => (eval_spelt value h).mono fun _ _ hxy => ⟨hxy.1, nofun⟩
  | .join parts, h => (exprs_spelt parts h).bind fun _ _ hparts => by
      rw [texts_spelt hparts]
      exact .pure ⟨.str, fun _ => rfl⟩
  | .sum parts, h => (exprs_spelt parts h).bind fun _ _ hparts => by
      rw [sum_spelt hparts _ fun total _ _ h => by cases h <;> rfl]
      exact .pure ⟨.number, fun _ => rfl⟩
  | .push list item, h => by
      rw [Expr.isPlain, Bool.and_eq_true] at h
      exact (eval_spelt list h.1).bind fun _ _ hlist => (eval_spelt item h.2).bind fun _ _ hitem =>
        (newList_spelt (List.rel_append hlist.1.conforms.items (.cons hitem.1 .nil))).mono fun _ _ h => ⟨h, nofun⟩
  | .drop list index, h => by
      rw [Expr.isPlain, Bool.and_eq_true] at h
      exact (eval_spelt list h.1).bind fun _ _ hlist => (eval_spelt index h.2).bind fun _ _ hindex => by
        rw [hindex.1.asIndex_eq]
        exact (newList_spelt (eraseIdx_spelt hlist.1.conforms.items _)).mono fun _ _ h => ⟨h, nofun⟩
  | .nth list index, h => by
      rw [Expr.isPlain, Bool.and_eq_true] at h
      exact (eval_spelt list h.1).bind fun _ _ hlist => (eval_spelt index h.2).bind fun _ _ hindex => by
        rw [hindex.1.asIndex_eq]
        exact .pure ⟨(spelt_conformity ctx d).argAt hlist.1.conforms.items _, nofun⟩
  | .length list, h => (eval_spelt list h).bind fun _ _ hlist => by
      rw [hlist.1.conforms.items.length_eq]
      exact .pure ⟨.number, fun _ => rfl⟩
  | .truthy value, h => (eval_spelt value h).bind fun _ _ hvalue => by
      rw [hvalue.1.conforms.isTruthy_eq]
      exact .pure ⟨.bool, fun _ => rfl⟩
  | .negation value, h => (eval_spelt value h).bind fun _ _ hvalue => by
      rw [hvalue.1.conforms.isTruthy_eq]
      exact .pure ⟨.bool, fun _ => rfl⟩
  | .same left right, h => by
      rw [Expr.isPlain, Bool.and_eq_true, Bool.and_eq_true, Bool.or_eq_true] at h
      exact (eval_spelt left h.2.1).bind fun _ _ hleft => (eval_spelt right h.2.2).bind fun _ _ hright => by
        rw [hleft.1.same_eq hright.1 (h.1.imp hleft.2 hright.2)]
        exact .pure ⟨.bool, nofun⟩
  | .choose condition yes no, h => by
      rw [Expr.isPlain, Bool.and_eq_true, Bool.and_eq_true] at h
      exact (eval_spelt condition h.1).bind fun _ _ hcondition => (eval_spelt yes h.2.1).bind fun _ _ hyes =>
        (eval_spelt no h.2.2).bind fun _ _ hno => by
          rw [hcondition.1.conforms.isTruthy_eq]
          refine .pure ⟨?_, nofun⟩
          split
          · exact hyes.1
          · exact hno.1

theorem exprs_spelt : ∀ es : List Expr, plainExprs known es = true →
    AttemptsAgree fails (List.Forall₂ (ArgSpelt ctx d)) (evalArgs ctx i env es) (evalArgs ctx i' env' es)
  | [], _ => .pure .nil
  | e :: es, h => by
      rw [plainExprs, Bool.and_eq_true] at h
      rw [evalArgs_cons, evalArgs_cons]
      have hhead := headArgs_spelt henv.args ((eval_spelt e h.1).mono fun _ _ hxy => hxy.1)
      exact hhead.bind fun _ _ hxs => (exprs_spelt es h.2).bind fun _ _ hys => .pure (List.rel_append hxs hys)

/-- A sentence of its own is a sentence on both sides. -/
theorem sentence_spelt : ∀ calls : List Call, plainCalls known calls = true →
    AttemptsAgree fails (fun x y => ∃ i i' s s', x = .sentence i s ∧ y = .sentence i' s' ∧
      LexemsSpelt ctx d s.lexems s'.lexems)
      (eval ctx i env (.sentence calls none none)) (eval ctx i' env' (.sentence calls none none))
  | calls, h => by
      simp only [eval]
      have hshares := henv.shares.mono fun _ => known_of_wordsCalled h
      exact (build_spelt calls henv.abreast hshares h).bind fun _ _ hs =>
        (ActsAgree.alloc .bare .bare).ofAct.bind fun _ _ _ => .pure ⟨_, _, _, _, rfl, rfl, hs.lexems⟩

theorem build_spelt : ∀ (calls : List Call) {n : Lexicon} {s s' : Sentence}, Abreast d n level s s' →
    Lexicon.Shares fails (· ∈ wordsCalled calls) n s.lexicon s'.lexicon → plainCalls known calls = true →
    AttemptsAgree fails (Lengthened ctx d s s') (build ctx i env s calls) (build ctx i' env' s' calls)
  | [], _, s, s', _, _, _ => .pure (.refl s s')
  | c :: calls, _, s, s', hs, hshares, h => by
      rw [plainCalls, Bool.and_eq_true] at h
      rw [wordsCalled_cons] at hshares
      exact (call_spelt c hs (hshares.mono fun _ => List.mem_append_left _) h.1).bind fun _ _ hfirst =>
        (build_spelt calls (hfirst.abreast hs) (by
          rw [hfirst.lexicon_eq.1, hfirst.lexicon_eq.2]
          exact hshares.mono fun _ => List.mem_append_right _) h.2).mono fun _ _ hrest => hfirst.trans hrest

theorem call_spelt : ∀ (c : Call) {n : Lexicon} {s s' : Sentence}, Abreast d n level s s' →
    Lexicon.Shares fails (· ∈ wordsCalled [c]) n s.lexicon s'.lexicon → c.isPlain known = true →
    AttemptsAgree fails (Lengthened ctx d s s') (call ctx i env s c) (call ctx i' env' s' c)
  | .word name args, _, s, s', hs, hshares, h => by
      rw [Call.isPlain, Bool.and_eq_true] at h
      exact (exprs_spelt args h.2).bind fun _ _ hargs =>
        (tryCall_spelt hd hspells hdevelops hs hshares List.mem_cons_self hargs).mapError _
  | .append _ _ args, _, s, s', _, _, h => (exprs_spelt args h).bind fun _ _ hargs => .pure (.append hargs)
  | .splice (.sentence calls none none), _, s, s', _, _, h => (sentence_spelt calls h).bind fun _ _ hxy => by
      obtain ⟨_, _, _, _, rfl, rfl, hlexems⟩ := hxy
      exact .pure (.splice hlexems)

end

omit hspells henv in
/-- A body does the same to two sentences abreast of each other if the interpreter of its calls does. -/
theorem runBody_spelt (hinner : i.Spells ctx d i') {body : Body} {owner : Lexicon} {s s' : Sentence}
    {args args' : List Arg} (hs : Abreast d m level s s') (howner : owner ∈ m.chain)
    (hconcurs : ∀ name ∈ wordsCalled body.calls, m.Concurs s.lexicon name ∧ m.Concurs s'.lexicon name)
    (hplain : plainCalls owner.hasWord body.calls = true) (hargs : List.Forall₂ (ArgSpelt ctx d) args args') :
    ActsAgree (Lengthened ctx d s s') (runBody ctx i body ⟨owner, .firstLevel⟩ s args)
      (runBody ctx i' body ⟨owner, level⟩ s' args') := by
  have henv : EnvsSpelt ctx d False level owner.hasWord owner ⟨⟨owner, .firstLevel⟩, [], args⟩
      ⟨⟨owner, level⟩, [], args'⟩ := ⟨⟨hs.paired.self howner, rfl, rfl⟩, .self owner, hargs⟩
  have hbuild := (build_spelt hd hinner hdevelops henv body.calls hs (.of_called howner hplain hconcurs)
    hplain).orBreakOff ScriptError.message
  unfold runBody
  split
  · exact (ActsAgree.write _ _).bind fun _ _ _ => hbuild
  · exact hbuild

end Evaluation

/-- Bodies that may go at least as deep on the first level do the same there. -/
theorem interpreterWithin_spelt (hd : d.Expandable) :
    ∀ {depth depth' : Nat}, depth' ≤ depth → depth' ≤ depthLimit →
    (interpreterWithin ctx depth).Spells ctx d (interpreterWithin ctx depth')
  | _, 0, _, _ => fun _ _ _ _ _ => .stopped' rfl
  | _ + 1, _ + 1, h, hlimit => fun hs howner hconcurs hplain hargs =>
      runBody_spelt hd (interpreterWithin_spelt hd (Nat.le_of_succ_le hlimit) (Nat.le_of_succ_le hlimit))
        (interpreterWithin_spelt hd (Nat.le_of_succ_le_succ h) (Nat.le_of_succ_le hlimit)) hs howner hconcurs
        hplain hargs

theorem interpreter_spelt (ctx : Context) (hd : d.Expandable) :
    (interpreter ctx).Spells ctx d (interpreter ctx) := interpreterWithin_spelt hd (Nat.le_refl _) (Nat.le_refl _)

/-- A program comes to the same on both levels, with compounds spelt out on the atomic one. -/
theorem program_spelt (ctx : Context) (hd : d.Expandable) {calls : List Call}
    (hplain : plainCalls (fun _ => true) calls = true) :
    AttemptsAgree True (fun s s' => LexemsSpelt ctx d s.lexems s'.lexems)
      (build ctx (interpreter ctx) (.new ⟨d, .firstLevel⟩) (Sentence.empty d .firstLevel) calls)
      (build ctx (interpreter ctx) (.new ⟨d, .atomic⟩) (Sentence.empty d .atomic) calls) := by
  have habreast : Abreast d d .atomic (Sentence.empty d .firstLevel) (Sentence.empty d .atomic) :=
    ⟨.within d.mem_chain_self, rfl, rfl⟩
  have hshares : ∀ known, Lexicon.Shares True known d d d := fun _ _ _ => ⟨⟨.refl _ _, .refl _ _⟩, fun _ => ⟨trivial, rfl⟩⟩
  have hspells : (interpreter ctx).Spells ctx d (interpreter ctx) := interpreter_spelt ctx hd
  exact (build_spelt hd hspells hspells ⟨habreast, hshares _, .nil⟩ calls habreast (hshares _) hplain).mono
    fun _ _ h => h.lexems

end Script

end Parlance
