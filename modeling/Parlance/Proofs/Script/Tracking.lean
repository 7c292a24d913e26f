import Parlance.Proofs.Lexicon.Spelling
import Parlance.Proofs.Script.Twins

/-! Scripts in twin worlds. Whatever a script does, evaluating expressions, building sentences, reading documents and
calling words, it does in both worlds in the same way: it ends in both, with twin results, or it fails in both, by the
same mistake. -/

namespace Parlance

/-- An interpreter that does the same in twin worlds. -/
structure Interpreter.Tracks (i : Interpreter World) : Prop where
  fresh : ∀ ρ, ActsTwin ρ (fun ρ₁ a b => ρ₁ a b) i.fresh i.fresh
  run : ∀ {ρ : Pairing} {body : Body} {h : Initializer} {s s' : Sentence} {args args' : List Arg}, s.Twin ρ s' →
    ArgsTwin ρ args args' → ActsTwin ρ Sentence.Twin (i.run body h s args) (i.run body h s' args')

variable {ρ : Pairing} {i : Interpreter World}

theorem Env.Twin.bind {env env' : Env} (h : env.Twin ρ env') (name : String) {value value' : Arg}
    (hvalue : value.Twin ρ value') : (env.bind name value).Twin ρ (env'.bind name value') := by
  cases h with
  | mk hnames hargs => exact .mk (hnames.put name hvalue) hargs

theorem Env.Twin.initializer_eq {env env' : Env} (h : env.Twin ρ env') : env.initializer = env'.initializer := by
  cases h
  rfl

section Words

set_option linter.unusedSectionVars false

variable (hi : i.Tracks)
include hi

theorem Word.apply_tracks (word : Word) (owner : Lexicon) (name : String) {s s' : Sentence} {args args' : List Arg}
    (hs : s.Twin ρ s') (hargs : ArgsTwin ρ args args') :
    ActsTwin ρ Sentence.Twin (word.apply i owner s name args) (word.apply i owner s' name args') := by
  have happend : ActsTwin ρ Sentence.Twin (pure (s.append owner.name name args) : Act World Sentence)
      (pure (s'.append owner.name name args')) :=
    .pure fun _ hwithin => (hs.append owner.name name hargs).mono hwithin
  have hlevel : s.level = s'.level := by
    cases hs
    rfl
  rcases word with _ | body | body
  · exact happend
  · simp only [Word.apply]
    rw [← hlevel]
    cases s.level with
    | atomic => exact hi.run hs hargs
    | firstLevel => exact happend
  · simp only [Word.apply]
    rw [← hlevel]
    exact hi.run hs hargs

theorem Sentence.tryCall_tracks (name : String) {s s' : Sentence} {args args' : List Arg} (hs : s.Twin ρ s')
    (hargs : ArgsTwin ρ args args') : ActsTwin ρ Sentence.Twin (s.tryCall i name args) (s'.tryCall i name args') := by
  have hlexicon : s.lexicon = s'.lexicon := by
    cases hs
    rfl
  unfold Sentence.tryCall
  rw [← hlexicon]
  cases s.lexicon.resolve name with
  | none => exact .throw _
  | some found => exact (found.2.apply_tracks hi found.1 name hs hargs).ofAct

theorem Sentence.useReference_tracks (registry : Registry) (reference : String) {s s' : Sentence}
    {args args' : List Arg} (hs : s.Twin ρ s') (hargs : ArgsTwin ρ args args') :
    ActsTwin ρ Sentence.Twin (s.useReference i registry reference args) (s'.useReference i registry reference args') := by
  unfold Sentence.useReference
  cases splitReference reference with
  | none => exact .throw _
  | some parts =>
      dsimp only
      cases registry.get? parts.1 with
      | none => exact .throw _
      | some lexicon =>
          dsimp only
          cases lexicon.resolve parts.2 with
          | none => exact .throw _
          | some found => exact (found.2.apply_tracks hi found.1 parts.2 hs hargs).ofAct

theorem Html.Shape.apply_tracks (shape : Html.Shape) {args args' : List Arg} (hargs : ArgsTwin ρ args args') :
    ActsTwin ρ ArgsTwin (shape.apply i args) (shape.apply i args') := by
  cases shape with
  | value index => exact .pure fun _ hwithin => .cons ((argAt_twin hargs index).mono hwithin) .nil
  | text index =>
      simp only [Html.Shape.apply]
      rw [(argAt_twin hargs index).toText_eq]
      exact .pure fun _ _ => .cons .str .nil
  | flag index =>
      simp only [Html.Shape.apply]
      rw [(argAt_twin hargs index).isTruthy_eq]
      exact .pure fun _ _ => .cons .bool .nil
  | phrase index =>
      have harg := argAt_twin hargs index
      simp only [Html.Shape.apply]
      generalize argAt args index = a, argAt args' index = a' at harg
      cases harg with
      | sentence _ hlexems =>
          exact (hi.fresh ρ).bind fun ρ₁ hwithin x y hxy => .pure fun ρ₂ hwithin' =>
            .cons (.mono hwithin' (.sentence hxy (lexems_twin_mono hwithin hlexems))) .nil
      | _ => exact .pure fun _ _ => .cons .null .nil
  | rest start => exact .pure fun _ hwithin => args_twin_mono hwithin (drop_twin hargs start)
  | packed start =>
      exact (hi.fresh ρ).bind fun ρ₁ hwithin x y hxy => .pure fun ρ₂ hwithin' =>
        .cons (.mono hwithin' (.list hxy (args_twin_mono hwithin (drop_twin hargs start)))) .nil

theorem Html.Method.argsFor_tracks (method : Html.Method) {args args' : List Arg} (hargs : ArgsTwin ρ args args') :
    ActsTwin ρ ArgsTwin (method.argsFor i args) (method.argsFor i args') := by
  have hparts : ∀ (shapes : List Html.Shape) {ρ : Pairing}, ArgsTwin ρ args args' →
      ActsTwin ρ (fun ρ₁ => List.Forall₂ (ArgsTwin ρ₁)) (shapes.mapM (Html.Shape.apply i args))
        (shapes.mapM (Html.Shape.apply i args')) := by
    intro shapes
    induction shapes with
    | nil => exact fun _ => .pure fun _ _ => .nil
    | cons shape shapes ih =>
        intro ρ hargs
        rw [List.mapM_cons, List.mapM_cons]
        refine (shape.apply_tracks hi hargs).bind fun ρ₁ hwithin x y hxy =>
          (ih (args_twin_mono hwithin hargs)).bind fun ρ₂ hwithin' xs ys hxs => .pure fun ρ₃ hwithin₃ => ?_
        have hhead : ArgsTwin ρ₃ x y := args_twin_mono hwithin₃ (args_twin_mono hwithin' hxy)
        exact .cons hhead (hxs.imp fun _ _ h => args_twin_mono hwithin₃ h)
  refine (hparts method.shapes hargs).bind fun ρ₁ _ parts parts' h => .pure fun ρ₂ hwithin => ?_
  refine args_twin_mono hwithin ?_
  induction h with
  | nil => exact .nil
  | cons head _ ih => exact append_twin head ih

mutual

theorem ArgDoc.toArg_tracks (registry : Registry) : ∀ (doc : ArgDoc) {ρ : Pairing},
    ActsTwin ρ Arg.Twin (doc.toArg i registry) (doc.toArg i registry)
  | .null, _ => .pure fun _ _ => .null
  | .bool _, _ => .pure fun _ _ => .bool
  | .number _, _ => .pure fun _ _ => .number
  | .str _, _ => .pure fun _ _ => .str
  | .sentence doc, _ => by
      rw [ArgDoc.toArg]
      refine (SentenceDoc.toSentence_tracks registry doc).bind fun ρ₁ _ s s' hs =>
        (hi.fresh ρ₁).ofAct.bind fun ρ₂ hwithin a b hab => .pure fun ρ₃ hwithin' => ?_
      cases hs with
      | mk hlexems => exact .mono hwithin' (.sentence hab (lexems_twin_mono hwithin hlexems))
  | .list items, _ => by
      rw [ArgDoc.toArg]
      exact (docsToArgs_tracks registry items).bind fun ρ₁ _ xs ys hxs =>
        (hi.fresh ρ₁).ofAct.bind fun ρ₂ hwithin a b hab => .pure fun ρ₃ hwithin' =>
          .mono hwithin' (.list hab (args_twin_mono hwithin hxs))

theorem docsToArgs_tracks (registry : Registry) : ∀ (docs : List ArgDoc) {ρ : Pairing},
    ActsTwin ρ ArgsTwin (docsToArgs i registry docs) (docsToArgs i registry docs)
  | [], _ => .pure fun _ _ => .nil
  | doc :: docs, _ => by
      rw [docsToArgs]
      exact (ArgDoc.toArg_tracks registry doc).bind fun ρ₁ _ x y hxy =>
        (docsToArgs_tracks registry docs).bind fun ρ₂ hwithin xs ys hxs => .pure fun ρ₃ hwithin' =>
          args_twin_mono hwithin' (.cons (hxy.mono hwithin) hxs)

theorem docsToLexems_tracks (registry : Registry) : ∀ (docs : List LexemDoc) {ρ : Pairing},
    ActsTwin ρ (fun ρ₁ => List.Forall₂ (Lexem.Twin ρ₁)) (docsToLexems i registry docs) (docsToLexems i registry docs)
  | [], _ => .pure fun _ _ => .nil
  | ⟨space, name, args⟩ :: docs, _ => by
      rw [docsToLexems]
      cases registry.get? space with
      | none => exact .throw _
      | some lexicon =>
          dsimp only
          split
          · exact (docsToArgs_tracks registry args).bind fun ρ₁ _ xs ys hxs =>
              (docsToLexems_tracks registry docs).bind fun ρ₂ hwithin ls ls' hls => .pure fun ρ₃ hwithin' =>
                lexems_twin_mono hwithin' (.cons (.mk (args_twin_mono hwithin hxs)) hls)
          · exact .throw _

theorem SentenceDoc.toSentence_tracks (registry : Registry) : ∀ (doc : SentenceDoc) {ρ : Pairing},
    ActsTwin ρ Sentence.Twin (doc.toSentence i registry) (doc.toSentence i registry)
  | ⟨lexiconName, level, lexems⟩, _ => by
      rw [SentenceDoc.toSentence]
      cases registry.get? lexiconName with
      | none => exact .throw _
      | some lexicon =>
          exact (docsToLexems_tracks registry lexems).bind fun ρ₁ _ ls ls' hls => .pure fun ρ₂ hwithin =>
            .mono hwithin (.mk hls)

end

theorem Sentence.ofText_tracks (registry : Registry) (text : String) :
    ActsTwin ρ Sentence.Twin (Sentence.ofText i registry text) (Sentence.ofText i registry text) := by
  unfold Sentence.ofText
  cases SentenceDoc.ofText text with
  | error => exact .throw _
  | ok doc => exact SentenceDoc.toSentence_tracks hi registry doc

end Words

namespace Script

section Evaluation

set_option linter.unusedSectionVars false

variable {ctx : Context} {env env' : Env}

theorem newList_tracks {items items' : List Arg} (h : ArgsTwin ρ items items') :
    ActsTwin ρ Arg.Twin (newList items) (newList items') :=
  (ActsTwin.alloc .bare).ofAct.bind fun _ hwithin _ _ hab => .pure fun _ hwithin' =>
    .mono hwithin' (.list hab (args_twin_mono hwithin h))

theorem recordText?_tracks {a a' : Arg} (h : a.Twin ρ a') :
    ActsTwin ρ (fun _ x y => x = y) (recordText? a) (recordText? a') := by
  cases h with
  | data hpaired =>
      refine ActsTwin.get.bind fun ρ₁ hwithin w w' hw => ?_
      have hcell := hw.cells (hwithin _ _ hpaired)
      generalize w.cell _ = c, w'.cell _ = c' at hcell
      cases hcell with
      | @record content => cases content <;> exact .pure fun _ _ => rfl
      | _ => exact .pure fun _ _ => rfl
  | _ => exact .pure fun _ _ => rfl

theorem withItem_twin (h : env.Twin ρ env') {item item' : Arg} (hitem : item.Twin ρ item') (index : Nat) :
    (withItem env item index).Twin ρ (withItem env' item' index) := (h.bind "item" hitem).bind "index" .number

theorem same_tracks {x x' y y' : Arg} (hx : x.Twin ρ x') (hy : y.Twin ρ y') :
    ActsTwin ρ Arg.Twin (pure (.bool (x.same y)) : Eval Arg) (pure (.bool (x'.same y'))) := by
  intro ρ₁ hwithin w w' hw
  rw [hw.same_eq (hx.mono hwithin) (hy.mono hwithin)]
  exact .ok (.refl ρ₁ w w') hw .bool

/-- The rounds of a list, if the single rounds are twins. -/
theorem spliceItems_tracks {round round' : Arg → Nat → Act World Sentence} {items items' : List Arg} {s s' : Sentence}
    (hround : ∀ ρ₁, ρ.Within ρ₁ → ∀ {item item' : Arg}, item.Twin ρ₁ item' → ∀ index,
      ActsTwin ρ₁ Sentence.Twin (round item index) (round' item' index))
    (hitems : ArgsTwin ρ items items') (hs : s.Twin ρ s') (index : Nat) :
    ActsTwin ρ Sentence.Twin (spliceItems round s index items) (spliceItems round' s' index items') := by
  induction items generalizing items' ρ s s' index with
  | nil =>
      cases hitems
      exact .pure fun _ hwithin => hs.mono hwithin
  | cons item items ih =>
      cases hitems with
      | cons head tail =>
          rw [spliceItems, spliceItems]
          refine (hround ρ (fun _ _ h => h) head index).bind fun ρ₁ hwithin t t' ht => ?_
          exact ih (fun ρ₂ hwithin' => hround ρ₂ fun a b hab => hwithin' a b (hwithin a b hab))
            (args_twin_mono hwithin tail) ((hs.mono hwithin).splice ht) (index + 1)

/-- The part of an environment that a sentence of its own is built in. -/
theorem within_tracks (h : env.Twin ρ env') (lexicon : Option String) (level : Option Level) :
    ActsTwin ρ Env.Twin (Attempt.ofExcept (within ctx env lexicon level) : Eval Env)
      (Attempt.ofExcept (within ctx env' lexicon level)) := by
  cases h with
  | mk hnames hargs =>
      unfold within
      cases lexicon with
      | none => exact .pure fun _ hwithin => .mono hwithin (.mk hnames hargs)
      | some key =>
          dsimp only
          cases ctx.lexicon key with
          | error => exact .throw _
          | ok => exact .pure fun _ hwithin => .mono hwithin (.mk hnames hargs)

theorem headArgs_tracks (henv : env.Twin ρ env') {e : Expr}
    (he : ActsTwin ρ Arg.Twin (eval ctx i env e) (eval ctx i env' e)) :
    ActsTwin ρ ArgsTwin (headArgs ctx i env e) (headArgs ctx i env' e) := by
  cases e
  case rest start =>
    cases henv with
    | mk _ hargs => exact .pure fun _ hwithin => args_twin_mono hwithin (drop_twin hargs start)
  case given value =>
    simp only [eval] at he
    refine he.bind fun ρ₁ _ x y hxy => .pure fun ρ₂ hwithin => ?_
    rw [hxy.isNull_eq]
    split
    · exact .nil
    · exact .cons (hxy.mono hwithin) .nil
  all_goals exact he.bind fun ρ₁ _ x y hxy => .pure fun ρ₂ hwithin => .cons (hxy.mono hwithin) .nil

theorem sum_twin {add : Number → Arg → Number} (hadd : ∀ total {x y}, x.Twin ρ y → add total x = add total y)
    {xs ys : List Arg} (h : ArgsTwin ρ xs ys) (total : Number) : xs.foldl add total = ys.foldl add total := by
  induction h generalizing total with
  | nil => rfl
  | cons head _ ih => rw [List.foldl_cons, List.foldl_cons, hadd total head, ih]

variable (hi : i.Tracks)
include hi

mutual

theorem eval_tracks : ∀ (e : Expr) {ρ : Pairing} {env env' : Env}, env.Twin ρ env' →
    ActsTwin ρ Arg.Twin (eval ctx i env e) (eval ctx i env' e)
  | .null, _, _, _, _ => .pure fun _ _ => .null
  | .bool _, _, _, _, _ => .pure fun _ _ => .bool
  | .number _, _, _, _, _ => .pure fun _ _ => .number
  | .str _, _, _, _, _ => .pure fun _ _ => .str
  | .sentence calls lexicon level, _, _, _, henv => by
      simp only [eval]
      refine (within_tracks henv lexicon level).bind fun ρ₁ _ env env' henv => ?_
      refine (build_tracks calls henv (henv.initializer_eq ▸ .mk .nil)).bind fun ρ₂ _ s s' hs =>
        (ActsTwin.alloc .bare).ofAct.bind fun ρ₃ hwithin a b hab => .pure fun ρ₄ hwithin' => ?_
      cases hs with
      | mk hlexems => exact .mono hwithin' (.sentence hab (lexems_twin_mono hwithin hlexems))
  | .document text, _, _, _, _ => by
      simp only [eval]
      refine ((Sentence.ofText_tracks hi ctx.registry text).mapError _).bind fun ρ₂ _ s s' hs =>
        (ActsTwin.alloc .bare).ofAct.bind fun ρ₃ hwithin a b hab => .pure fun ρ₄ hwithin' => ?_
      cases hs with
      | mk hlexems => exact .mono hwithin' (.sentence hab (lexems_twin_mono hwithin hlexems))
  | .list items, _, _, _, henv => by
      simp only [eval]
      exact (exprs_track items henv).bind fun _ _ _ _ h => newList_tracks h
  | .record content, _, _, _, _ => by
      simp only [eval]
      exact (ActsTwin.alloc .record).ofAct.bind fun _ _ _ _ h => .pure fun _ hwithin => .mono hwithin (.data h)
  | .field record, _, _, _, henv => by
      simp only [eval]
      refine (eval_tracks record henv).bind fun ρ₁ _ x y hxy => (recordText?_tracks hxy).bind fun ρ₂ _ t t' ht => ?_
      subst ht
      cases t with
      | none => exact .pure fun _ _ => .null
      | some text => exact .pure fun _ _ => .str
  | .edit record suffix, _, _, _, henv => by
      simp only [eval]
      refine (eval_tracks record henv).bind fun ρ₁ hwithin₁ x y hxy =>
        (eval_tracks suffix (henv.mono hwithin₁)).bind fun ρ₂ hwithin₂ u v huv =>
          (recordText?_tracks (hxy.mono hwithin₂)).bind fun ρ₃ _ t t' ht => ?_
      subst ht
      cases t with
      | none => exact .pure fun _ _ => .null
      | some text =>
          dsimp only
          rw [huv.toText_eq]
          exact (ActsTwin.alloc .record).ofAct.bind fun _ _ _ _ h => .pure fun _ hwithin => .mono hwithin (.data h)
  | .name name, _, _, _, henv => by
      simp only [eval]
      cases henv with
      | @mk _ names names' _ _ hnames _ =>
          have hfound := hnames.get? name
          dsimp only
          generalize names.get? name = found, names'.get? name = found' at hfound
          cases hfound with
          | some h => exact .pure fun _ hwithin => .mono hwithin h
          | none =>
              refine ActsTwin.get.bind fun ρ₁ _ w w' hw => .pure fun ρ₂ hwithin => ?_
              have hglobal := hw.globals.get? name
              generalize w.globals.get? name = found, w'.globals.get? name = found' at hglobal
              cases hglobal with
              | some h => exact h.mono hwithin
              | none => exact .null
  | .arg index, _, _, _, henv => by
      simp only [eval]
      cases henv with
      | mk _ hargs => exact .pure fun _ hwithin => .mono hwithin (argAt_twin hargs index)
  | .rest start, _, _, _, henv => by
      simp only [eval]
      cases henv with
      | mk _ hargs => exact newList_tracks (drop_twin hargs start)
  | .given value, _, _, _, henv => by
      simp only [eval]
      exact eval_tracks value henv
  | .render calls label, _, _, _, henv => by
      simp only [eval]
      exact (ActsTwin.alloc (.render henv)).ofAct.bind fun _ _ _ _ h => .pure fun _ hwithin => .mono hwithin (.render h)
  | .handler label update, _, _, _, henv => by
      simp only [eval]
      exact (ActsTwin.alloc (.handler henv)).ofAct.bind fun _ _ _ _ h => .pure fun _ hwithin => .mono hwithin (.handler h)
  | .callback label, _, _, _, _ => by
      simp only [eval]
      exact (ActsTwin.alloc .callback).ofAct.bind fun _ _ _ _ h => .pure fun _ hwithin => .mono hwithin (.callback h)
  | .hook label bare, _, _, _, _ => by
      simp only [eval]
      exact (ActsTwin.alloc .hook).ofAct.bind fun _ _ _ _ h => .pure fun _ hwithin => .mono hwithin (.hook h)
  | .component typeName reports definition, _, _, _, henv => by
      simp only [eval]
      exact (ActsTwin.alloc (.factory henv)).ofAct.bind fun _ _ _ _ h => .pure fun _ hwithin =>
        .mono hwithin (.component h)
  | .join parts, _, _, _, henv => by
      simp only [eval]
      refine (exprs_track parts henv).bind fun ρ₁ _ xs ys hxs => .pure fun _ _ => ?_
      have htexts : xs.map Arg.toText = ys.map Arg.toText := by
        induction hxs with
        | nil => rfl
        | cons head _ ih => rw [List.map_cons, List.map_cons, head.toText_eq, ih]
      rw [htexts]
      exact .str
  | .sum parts, _, _, _, henv => by
      simp only [eval]
      refine (exprs_track parts henv).bind fun ρ₁ _ xs ys hxs => .pure fun _ _ => ?_
      rw [sum_twin (fun total x y hxy => ?_) hxs]
      · exact .number
      · cases hxy <;> rfl
  | .push list item, _, _, _, henv => by
      simp only [eval]
      refine (eval_tracks list henv).bind fun ρ₁ hwithin x y hxy =>
        (eval_tracks item (henv.mono hwithin)).bind fun ρ₂ hwithin' u v huv => newList_tracks ?_
      exact append_twin (hxy.mono hwithin').items (.cons huv .nil)
  | .drop list index, _, _, _, henv => by
      simp only [eval]
      refine (eval_tracks list henv).bind fun ρ₁ hwithin x y hxy =>
        (eval_tracks index (henv.mono hwithin)).bind fun ρ₂ hwithin' u v huv => ?_
      rw [huv.asIndex_eq]
      exact newList_tracks (eraseIdx_twin (hxy.mono hwithin').items _)
  | .nth list index, _, _, _, henv => by
      simp only [eval]
      refine (eval_tracks list henv).bind fun ρ₁ hwithin x y hxy =>
        (eval_tracks index (henv.mono hwithin)).bind fun ρ₂ hwithin' u v huv => .pure fun ρ₃ hwithin₃ => ?_
      rw [huv.asIndex_eq]
      exact (argAt_twin (hxy.mono hwithin').items _).mono hwithin₃
  | .length list, _, _, _, henv => by
      simp only [eval]
      refine (eval_tracks list henv).bind fun ρ₁ _ x y hxy => .pure fun _ _ => ?_
      rw [hxy.items.length_eq]
      exact .number
  | .truthy value, _, _, _, henv => by
      simp only [eval]
      refine (eval_tracks value henv).bind fun ρ₁ _ x y hxy => .pure fun _ _ => ?_
      rw [hxy.isTruthy_eq]
      exact .bool
  | .negation value, _, _, _, henv => by
      simp only [eval]
      refine (eval_tracks value henv).bind fun ρ₁ _ x y hxy => .pure fun _ _ => ?_
      rw [hxy.isTruthy_eq]
      exact .bool
  | .same left right, _, _, _, henv => by
      simp only [eval]
      exact (eval_tracks left henv).bind fun ρ₁ hwithin x y hxy =>
        (eval_tracks right (henv.mono hwithin)).bind fun ρ₂ hwithin' u v huv => same_tracks (hxy.mono hwithin') huv
  | .choose condition yes no, _, _, _, henv => by
      simp only [eval]
      refine (eval_tracks condition henv).bind fun ρ₁ hwithin x y hxy =>
        (eval_tracks yes (henv.mono hwithin)).bind fun ρ₂ hwithin' u v huv =>
          (eval_tracks no ((henv.mono hwithin).mono hwithin')).bind fun ρ₃ hwithin₃ s t hst => .pure fun ρ₄ hwithin₄ => ?_
      rw [hxy.isTruthy_eq]
      split
      · exact (huv.mono hwithin₃).mono hwithin₄
      · exact hst.mono hwithin₄

theorem exprs_track : ∀ (es : List Expr) {ρ : Pairing} {env env' : Env}, env.Twin ρ env' →
    ActsTwin ρ ArgsTwin (evalArgs ctx i env es) (evalArgs ctx i env' es)
  | [], _, _, _, _ => .pure fun _ _ => .nil
  | e :: es, _, _, _, henv => by
      rw [evalArgs_cons, evalArgs_cons]
      exact (headArgs_tracks henv (eval_tracks e henv)).bind fun ρ₁ hwithin xs ys hxs =>
        (exprs_track es (henv.mono hwithin)).bind fun ρ₂ hwithin' us vs hus => .pure fun ρ₃ hwithin₃ =>
          args_twin_mono hwithin₃ (append_twin (args_twin_mono hwithin' hxs) hus)

theorem build_tracks : ∀ (calls : List Call) {ρ : Pairing} {env env' : Env} {s s' : Sentence}, env.Twin ρ env' →
    s.Twin ρ s' → ActsTwin ρ Sentence.Twin (build ctx i env s calls) (build ctx i env' s' calls)
  | [], _, _, _, _, _, _, hs => .pure fun _ hwithin => hs.mono hwithin
  | c :: calls, _, _, _, _, _, henv, hs => by
      rw [build, build]
      exact (call_tracks c henv hs).bind fun ρ₁ hwithin t t' ht => build_tracks calls (henv.mono hwithin) ht

theorem call_tracks : ∀ (c : Call) {ρ : Pairing} {env env' : Env} {s s' : Sentence}, env.Twin ρ env' →
    s.Twin ρ s' → ActsTwin ρ Sentence.Twin (call ctx i env s c) (call ctx i env' s' c)
  | .word name args, _, _, _, _, _, henv, hs => by
      simp only [call]
      exact (exprs_track args henv).bind fun ρ₁ hwithin xs ys hxs =>
        (Sentence.tryCall_tracks hi name (hs.mono hwithin) hxs).mapError _
  | .method name args, _, _, _, _, _, henv, hs => by
      simp only [call]
      refine (exprs_track args henv).bind fun ρ₁ hwithin xs ys hxs => ?_
      unfold callMethod
      cases Html.method? name with
      | none => exact .throw _
      | some method =>
          refine ActsTwin.ofAct ?_
          exact (method.argsFor_tracks hi hxs).bind fun ρ₂ hwithin' us vs hus =>
            (Sentence.tryCall_tracks hi method.word ((hs.mono hwithin).mono hwithin') hus).orBreakOff _
  | .append space name args, _, _, _, _, _, henv, hs => by
      simp only [call]
      exact (exprs_track args henv).bind fun ρ₁ hwithin xs ys hxs => .pure fun ρ₂ hwithin' =>
        .mono hwithin' ((hs.mono hwithin).append space name hxs)
  | .branch condition yes no, _, _, _, _, _, henv, hs => by
      simp only [call]
      refine (eval_tracks condition henv).bind fun ρ₁ hwithin₁ x y hxy =>
        (build_tracks yes (henv.mono hwithin₁) (henv.initializer_eq ▸ .mk .nil)).bind fun ρ₂ hwithin₂ u v huv =>
          (option_tracks no ((henv.mono hwithin₁).mono hwithin₂)).bind fun ρ₃ hwithin₃ o o' ho =>
            .pure fun ρ₄ hwithin₄ => ?_
      have hs : Sentence.Twin ρ₄ _ _ := (((hs.mono hwithin₁).mono hwithin₂).mono hwithin₃).mono hwithin₄
      rw [hxy.isTruthy_eq]
      split
      · exact hs.splice ((huv.mono hwithin₃).mono hwithin₄)
      · cases ho with
        | none => exact hs
        | some h => exact hs.splice (h.mono hwithin₄)
  | .repeated items body, _, _, _, _, _, henv, hs => by
      simp only [call]
      refine (eval_tracks items henv).bind fun ρ₁ hwithin x y hxy => ActsTwin.ofAct ?_
      refine spliceItems_tracks (fun ρ₂ hwithin' item item' hitem index => ?_) hxy.items (hs.mono hwithin) 0
      have hinner := withItem_twin ((henv.mono hwithin).mono hwithin') hitem index
      exact ActsTwin.orBreakOff (build_tracks body hinner (henv.initializer_eq ▸ .mk .nil)) _
  | .splice sentence, _, _, _, _, _, henv, hs => by
      simp only [call]
      refine (eval_tracks sentence henv).bind fun ρ₁ hwithin x y hxy => ?_
      cases hxy with
      | sentence _ hlexems =>
          exact .pure fun ρ₂ hwithin' => .mono hwithin' ((hs.mono hwithin).splice (.mk hlexems))
      | _ => exact .throw _
  | .reference reference args, _, _, _, _, _, henv, hs => by
      simp only [call]
      exact (exprs_track args henv).bind fun ρ₁ hwithin xs ys hxs =>
        (Sentence.useReference_tracks hi ctx.registry reference (hs.mono hwithin) hxs).mapError _
  | .continueWith lexicon, _, _, _, _, _, _, hs => by
      simp only [call]
      cases ctx.registry.get lexicon with
      | error => exact .throw _
      | ok found =>
          cases hs with
          | mk hlexems => exact .pure fun ρ₂ hwithin => .mono hwithin (.mk hlexems)

theorem option_tracks : ∀ (no : Option (List Call)) {ρ : Pairing} {env env' : Env}, env.Twin ρ env' →
    ActsTwin ρ (fun ρ₁ => Option.Rel (Sentence.Twin ρ₁)) (buildOption ctx i env no) (buildOption ctx i env' no)
  | none, _, _, _, _ => .pure fun _ _ => .none
  | some calls, _, _, _, henv => by
      rw [buildOption, buildOption]
      exact (build_tracks calls henv (henv.initializer_eq ▸ .mk .nil)).bind fun ρ₁ _ s s' hs => .pure fun ρ₂ hwithin =>
        .some (hs.mono hwithin)

end

end Evaluation

theorem runBody_tracks {ctx : Context} (hi : i.Tracks) {body : Body} {h : Initializer} {s s' : Sentence}
    {args args' : List Arg} (hs : s.Twin ρ s') (hargs : ArgsTwin ρ args args') :
    ActsTwin ρ Sentence.Twin (runBody ctx i body h s args) (runBody ctx i body h s' args') := by
  have henv : Env.Twin ρ ⟨h, [], args⟩ ⟨h, [], args'⟩ := .mk .nil hargs
  have hbuild : ActsTwin ρ _ (Attempt.orBreakOff _ (build ctx i _ s body.calls)) _ :=
    ActsTwin.orBreakOff (build_tracks hi body.calls henv hs) ScriptError.message
  unfold runBody
  cases body.label with
  | none => exact hbuild
  | some label => exact (ActsTwin.write _ _).bind fun _ hwithin _ _ _ => hbuild.within hwithin

theorem interpreterWithin_tracks (ctx : Context) : ∀ depth, (interpreterWithin ctx depth).Tracks
  | 0 => ⟨fun _ => .alloc .bare, fun _ _ => .throw _⟩
  | depth + 1 => ⟨fun _ => .alloc .bare, runBody_tracks (interpreterWithin_tracks ctx depth)⟩

theorem interpreter_tracks (ctx : Context) : (interpreter ctx).Tracks := interpreterWithin_tracks ctx depthLimit

/-- Render functions that are paired with each other give twins. -/
theorem callRender_tracks (ctx : Context) {f f' : Identity} (hf : ρ f f') {item item' : Arg}
    (hitem : item.Twin ρ item') (index : Nat) :
    ActsTwin ρ Sentence.Twin (callRender ctx f item index) (callRender ctx f' item' index) := by
  refine ActsTwin.get.bind fun ρ₁ hwithin w w' hw => ?_
  have hcell := hw.cells (hwithin _ _ hf)
  generalize w.cell f = c, w'.cell f' = c' at hcell
  cases hcell with
  | @render env env' calls label henv =>
      have hinner := withItem_twin henv (hitem.mono hwithin) index
      have hbuild : ActsTwin ρ₁ Sentence.Twin (buildIn ctx (withItem env item index) calls)
          (buildIn ctx (withItem env' item' index) calls) :=
        ActsTwin.orBreakOff (build_tracks (interpreter_tracks ctx) calls hinner (hinner.initializer_eq ▸ .mk .nil)) _
      cases label with
      | none => exact hbuild
      | some label => exact (ActsTwin.write _ _).bind fun _ hwithin' _ _ _ => hbuild.within hwithin'
  | _ => exact .throw _

end Script

end Parlance
