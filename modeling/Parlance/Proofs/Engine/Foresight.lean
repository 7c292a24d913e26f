import Parlance.Engine.Render
import Parlance.Proofs.Lexicon.Concord
import Parlance.Proofs.Script.Tracking
import Parlance.Proofs.Sentence.Sketches

/-! What an outline foresees of a pass. The outline looks a word up in the lexicon of the sentence in which it has found
it, the engine in the lexicon of its namespace. They see the same development as long as both lexicons take the word
from the same place, and all words that its body calls on the sentence that it is run on; apart from this the outline
shows what the lexicon of the sentence makes of the word. -/

namespace Parlance

namespace Sketch

variable {ω : Type}

/-- The lexems that are shown, each with the lines below it. -/
def visits : Sketch ω → List (Visit ω × Sketch ω)
  | nil => []
  | line (.lexem visit) below rest => (visit, below) :: (below.visits ++ rest.visits)
  | line _ below rest => below.visits ++ rest.visits

/-- What stands below the first arrow that no other line encloses. -/
def development? : Sketch ω → Option (Sketch ω)
  | nil => none
  | line .arrow below _ => some below
  | line _ _ rest => rest.development?

/-- The lexems that no other line encloses. -/
def lexems : Sketch ω → List Lexem
  | nil => []
  | line (.lexem visit) _ rest => visit.lexem :: rest.lexems
  | line _ _ rest => rest.lexems

theorem visits_append (sketch more : Sketch ω) : (sketch.append more).visits = sketch.visits ++ more.visits := by
  induction sketch with
  | nil => rfl
  | line heading below rest _ ih => cases heading <;> simp [append, visits, ih]

theorem development?_append {sketch more : Sketch ω} (h : sketch.development? = none) :
    (sketch.append more).development? = more.development? := by
  induction sketch with
  | nil => rfl
  | line heading below rest _ ih =>
      cases heading with
      | arrow => cases h
      | _ => exact ih h

end Sketch

section Visits

variable {ω : Type} {i : Interpreter ω} {d : Nat} {part : Part} {w w' : ω} {sketch : Sketch ω}

/-- Only a development stands under an arrow. -/
theorem Outlines.development?_eq_none (h : Outlines i d part w sketch w')
    (hpart : ∀ l level lexem, part ≠ .development l level lexem) : sketch.development? = none := by
  induction h with
  | noLexems | noArgs | noItems => rfl
  | lexem _ _ _ _ _ hrest | sentenceArg _ _ _ hrest | sentenceItem _ _ _ hrest =>
      exact hrest fun _ _ _ heq => by cases heq
  | otherArg _ _ ih | otherItem _ _ ih => exact ih fun _ _ _ heq => by cases heq
  | listArg _ _ hitems hrest =>
      rw [Sketch.development?_append (hitems fun _ _ _ heq => by cases heq)]
      exact hrest fun _ _ _ heq => by cases heq
  | undeveloped | developed => exact absurd rfl (hpart _ _ _)

theorem Outlines.lexems_eq {l : Lexicon} {level : Level} {lexems : List Lexem}
    (h : Outlines i d (.lexems l level lexems) w sketch w') : sketch.lexems = lexems := by
  induction lexems generalizing w sketch with
  | nil =>
      cases h
      rfl
  | cons lexem lexems ih =>
      cases h with
      | lexem _ _ hrest => exact congrArg (lexem :: ·) (ih hrest)

/-- Below every lexem stand the sentences among its arguments and then its development. -/
theorem Outlines.visited (h : Outlines i d part w sketch w') {v : Visit ω} {below : Sketch ω}
    (hv : (v, below) ∈ sketch.visits) : ∃ (nested development : Sketch ω) (w₁ : ω), below = nested.append development ∧
      nested.development? = none ∧ Outlines i v.depth (.development v.lexicon v.level v.lexem) v.world development w₁ := by
  induction h with
  | noLexems | noArgs | noItems | undeveloped => cases hv
  | otherArg _ _ ih | otherItem _ _ ih => exact ih hv
  | lexem hargs hdevelopment _ ihargs ihdevelopment ihrest =>
      simp only [Sketch.visits, Sketch.visits_append, List.mem_cons, List.mem_append] at hv
      rcases hv with heq | (hv | hv) | hv
      · cases heq
        exact ⟨_, _, _, rfl, hargs.development?_eq_none (fun _ _ _ heq => by cases heq), hdevelopment⟩
      · exact ihargs hv
      · exact ihdevelopment hv
      · exact ihrest hv
  | sentenceArg _ _ ihbelow ihrest | sentenceItem _ _ ihbelow ihrest =>
      rcases List.mem_append.mp hv with hv | hv
      · exact ihbelow hv
      · exact ihrest hv
  | listArg _ _ ihitems ihrest =>
      rw [Sketch.visits_append] at hv
      rcases List.mem_append.mp hv with hv | hv
      · exact ihitems hv
      · exact ihrest hv
  | developed _ _ _ ih =>
      rw [Sketch.visits, Sketch.visits, List.append_nil] at hv
      · exact ih hv
      · simp

/-- On the first level and with depth left, the outline shows what the lexicon of the sentence makes of the word. -/
theorem Outlines.development (h : Outlines i d part w sketch w') {v : Visit ω} {below : Sketch ω}
    (hv : (v, below) ∈ sketch.visits) (hlevel : v.level = .firstLevel) (hdepth : 0 < v.depth) :
    if v.lexicon.develops v.lexem.name then ∃ shown t w₁, below.development? = some shown ∧
      v.lexicon.develop i v.lexem v.world = .ok t w₁ ∧ shown.lexems = t.lexems
    else below.development? = none := by
  obtain ⟨nested, development, w₁, rfl, hnested, hdevelopment⟩ := h.visited hv
  rw [Sketch.development?_append hnested]
  obtain ⟨lexicon, level, depth, lexem, world⟩ := v
  obtain rfl : level = .firstLevel := hlevel
  obtain ⟨depth, rfl⟩ := Nat.exists_eq_succ_of_ne_zero (Nat.ne_of_gt hdepth)
  cases hdevelopment with
  | undeveloped hnone =>
      rcases hnone with hzero | hnone
      · cases hzero
      · rw [if_neg (by simpa using hnone)]
        rfl
  | developed hdevelops hdevelop hbelow =>
      rw [if_pos hdevelops]
      exact ⟨_, _, _, rfl, hdevelop, hbelow.lexems_eq⟩

end Visits

/-- The words that a call asks of the sentence that it extends. -/
def Call.asked : Call → List String
  | .word name _ => [name]
  | .method name _ => ((Html.method? name).map Html.Method.word).toList
  | _ => []

/-- A body that is run on a first-level sentence of the lexicon runs an alias on it. -/
inductive Lexicon.Runs (ctx : Context) (l : Lexicon) (body : Body) : Body → Prop
  | asked {c : Call} {name : String} {owner : Lexicon} {next : Body} (hcall : c ∈ body.calls) (hname : name ∈ c.asked)
      (hresolve : l.resolve name = some (owner, .alias next)) : Lexicon.Runs ctx l body next
  | referred {reference : String} {args : List Expr} {parts : String × String} {d owner : Lexicon} {next : Body}
      (hcall : .reference reference args ∈ body.calls) (hsplit : Sentence.splitReference reference = some parts)
      (hget : ctx.registry.get? parts.1 = some d) (hresolve : d.resolve parts.2 = some (owner, .alias next)) :
      Lexicon.Runs ctx l body next

/-- Whatever the body and the aliases that it runs ask of a first-level sentence, both lexicons have it from the same
place. -/
def Lexicon.Agree (ctx : Context) (l l' : Lexicon) (body : Body) : Prop :=
  ∀ next, Relation.ReflTransGen (l.Runs ctx) body next → ∀ c ∈ next.calls, ∀ name ∈ c.asked,
    l'.resolve name = l.resolve name

/-- The word is a compound in neither lexicon, or both have it from the same place, and all that its body asks of a
sentence. -/
def Lexicon.Concords (ctx : Context) (l l' : Lexicon) (name : String) : Prop :=
  (l.develops name = false ∧ l'.develops name = false) ∨
    l'.resolve name = l.resolve name ∧
      ∀ owner body, l.resolve name = some (owner, .compound body) → l.Agree ctx l' body

/-- Sentences with twin lexems: either twins, or first-level sentences of the two lexicons. -/
inductive Sentence.Beside (l l' : Lexicon) (ρ : Pairing) : Sentence → Sentence → Prop
  | twin {s s' : Sentence} (h : s.Twin ρ s') : Sentence.Beside l l' ρ s s'
  | apart {lexems lexems' : List Lexem} (hlexems : List.Forall₂ (Lexem.Twin ρ) lexems lexems') :
      Sentence.Beside l l' ρ ⟨l, .firstLevel, lexems⟩ ⟨l', .firstLevel, lexems'⟩

namespace Sentence.Beside

variable {l l' : Lexicon} {ρ ρ' : Pairing} {s s' t t' : Sentence}

theorem lexems (h : s.Beside l l' ρ s') : List.Forall₂ (Lexem.Twin ρ) s.lexems s'.lexems := by
  cases h with
  | twin h =>
      cases h with
      | mk hlexems => exact hlexems
  | apart hlexems => exact hlexems

theorem mono (hwithin : ρ.Within ρ') (h : s.Beside l l' ρ s') : s.Beside l l' ρ' s' := by
  cases h with
  | twin h => exact .twin (h.mono hwithin)
  | apart hlexems => exact .apart (lexems_twin_mono hwithin hlexems)

theorem append (h : s.Beside l l' ρ s') (space name : String) {args args' : List Arg} (hargs : ArgsTwin ρ args args') :
    (s.append space name args).Beside l l' ρ (s'.append space name args') := by
  cases h with
  | twin h => exact .twin (h.append space name hargs)
  | apart hlexems => exact .apart (List.rel_append hlexems (.cons (.mk hargs) .nil))

theorem splice (h : s.Beside l l' ρ s') (ht : t.Twin ρ t') : (s.splice t).Beside l l' ρ (s'.splice t') := by
  cases h with
  | twin h => exact .twin (h.splice ht)
  | apart hlexems =>
      cases ht with
      | mk hmore => exact .apart (List.rel_append hlexems hmore)

end Sentence.Beside

/-- If the first action comes to a result, the second one comes to one that is alike. -/
def ComesAlike {ε ε' α : Type} (ρ : Pairing) (Q : Pairing → α → α → Prop) (m : EStateM ε World α) (m' : EStateM ε' World α) :
    Prop :=
  ∀ ρ₁, ρ.Within ρ₁ → ∀ w w', w.Twin ρ₁ w' → ∀ x w₁, m w = .ok x w₁ → ∃ y w₁' ρ₂, m' w' = .ok y w₁' ∧
    Extends ρ₁ w w' ρ₂ w₁ w₁' ∧ w₁.Twin ρ₂ w₁' ∧ Q ρ₂ x y

namespace ComesAlike

variable {ε ε' α β : Type} {ρ : Pairing} {Q : Pairing → α → α → Prop} {P : Pairing → β → β → Prop}

theorem of_tracks {Q' : Pairing → α → α → Prop} {m m' : EStateM ε World α} (h : ActsTwin ρ Q' m m')
    (hQ : ∀ ρ₁ x y, Q' ρ₁ x y → Q ρ₁ x y) : ComesAlike ρ Q m m' := by
  intro ρ₁ hwithin w w' hw x w₁ hrun
  have hends := h ρ₁ hwithin w w' hw
  rw [hrun] at hends
  generalize m' w' = r at hends
  cases hends with
  | ok hextends hstate hresult => exact ⟨_, _, _, rfl, hextends, hstate, hQ _ _ _ hresult⟩

theorem pure {x y : α} (h : ∀ ρ₁, ρ.Within ρ₁ → Q ρ₁ x y) :
    ComesAlike ρ Q (Pure.pure x : EStateM ε World α) (Pure.pure y : EStateM ε World α) :=
  of_tracks (Tracks.pure h) fun _ _ _ => id

theorem bind {m m' : EStateM ε World α} {f f' : α → EStateM ε World β} (h : ComesAlike ρ Q m m')
    (hnext : ∀ ρ₁, ρ.Within ρ₁ → ∀ x y, Q ρ₁ x y → ComesAlike ρ₁ P (f x) (f' y)) : ComesAlike ρ P (m >>= f) (m' >>= f') := by
  intro ρ₁ hwithin w w' hw z w₂ hrun
  obtain ⟨x, w₁, hfirst, hlater⟩ := Act.bind_eq_ok.mp hrun
  obtain ⟨y, w₁', ρ₂, hfirst', hextends, hw₁, hxy⟩ := h ρ₁ hwithin w w' hw x w₁ hfirst
  have hwithin₂ : ρ.Within ρ₂ := fun a b hab => hextends.within a b (hwithin a b hab)
  obtain ⟨z', w₂', ρ₃, hlater', hextends', hw₂, hz⟩ :=
    hnext ρ₂ hwithin₂ x y hxy ρ₂ (fun _ _ h => h) w₁ w₁' hw₁ z w₂ hlater
  exact ⟨z', w₂', ρ₃, Act.bind_eq_ok.mpr ⟨y, w₁', hfirst', hlater'⟩, hextends.trans hextends', hw₂, hz⟩

theorem ofAct {m m' : Act World α} (h : ComesAlike ρ Q m m') :
    ComesAlike ρ Q (Attempt.ofAct m : Attempt ε World α) (Attempt.ofAct m' : Attempt ε World α) := by
  intro ρ₁ hwithin w w' hw x w₁ hrun
  unfold Attempt.ofAct at hrun
  split at hrun <;> cases hrun
  next hm =>
    obtain ⟨y, w₁', ρ₂, hm', hrest⟩ := h ρ₁ hwithin w w' hw x w₁ hm
    exact ⟨y, w₁', ρ₂, by simp only [Attempt.ofAct, hm'], hrest⟩

theorem mapError {m m' : Attempt ε World α} (h : ComesAlike ρ Q m m') (f : ε → ε') :
    ComesAlike ρ Q (m.mapError f) (m'.mapError f) := by
  intro ρ₁ hwithin w w' hw x w₁ hrun
  unfold Attempt.mapError at hrun
  split at hrun <;> cases hrun
  next hm =>
    obtain ⟨y, w₁', ρ₂, hm', hrest⟩ := h ρ₁ hwithin w w' hw x w₁ hm
    exact ⟨y, w₁', ρ₂, by simp only [Attempt.mapError, hm'], hrest⟩

theorem orBreakOff {m m' : Attempt ε World α} (h : ComesAlike ρ Q m m') (message : ε → String) :
    ComesAlike ρ Q (m.orBreakOff message) (m'.orBreakOff message) := by
  intro ρ₁ hwithin w w' hw x w₁ hrun
  unfold Attempt.orBreakOff at hrun
  split at hrun <;> cases hrun
  next hm =>
    obtain ⟨y, w₁', ρ₂, hm', hrest⟩ := h ρ₁ hwithin w w' hw x w₁ hm
    exact ⟨y, w₁', ρ₂, by simp only [Attempt.orBreakOff, hm'], hrest⟩

end ComesAlike

/-- Bodies that agree do the same on sentences beside each other. -/
structure Interpreter.Foresees (i : Interpreter World) (ctx : Context) (l l' : Lexicon) : Prop where
  tracks : i.Tracks
  run : ∀ {ρ : Pairing} {body : Body} {h : Initializer} {s s' : Sentence} {args args' : List Arg}, l.Agree ctx l' body →
    s.Beside l l' ρ s' → ArgsTwin ρ args args' →
    ComesAlike ρ (Sentence.Beside l l') (i.run body h s args) (i.run body h s' args')

section Agreement

set_option linter.unusedSectionVars false

variable {ctx : Context} {l l' : Lexicon} {i : Interpreter World} {ρ : Pairing} {env env' : Env} {s s' : Sentence}
variable {args args' : List Arg}

/-- Actions that end in twins end beside each other. -/
theorem ComesAlike.of_twins {ε : Type} {m m' : EStateM ε World Sentence} (h : ActsTwin ρ Sentence.Twin m m') :
    ComesAlike ρ (Sentence.Beside l l') m m' := of_tracks h fun _ _ _ => .twin

theorem Lexicon.Agree.of_runs {body next : Body} (h : l.Agree ctx l' body) (hruns : l.Runs ctx body next) :
    l.Agree ctx l' next := fun further hfurther => h further (.head hruns hfurther)

variable (hi : i.Foresees ctx l l')
include hi

/-- A word that both lexicons have from the same place extends sentences of both alike. -/
theorem Word.apply_beside {word : Word} (owner : Lexicon) (name : String)
    (hword : ∀ next, word = .alias next → l.Agree ctx l' next) (hs : s.Beside l l' ρ s') (hargs : ArgsTwin ρ args args') :
    ComesAlike ρ (Sentence.Beside l l') (word.apply i owner s name args) (word.apply i owner s' name args') := by
  cases hs with
  | twin hs => exact .of_twins (word.apply_tracks hi.tracks owner name hs hargs)
  | @apart lexems lexems' hlexems =>
      have hs : (⟨l, .firstLevel, lexems⟩ : Sentence).Beside l l' ρ ⟨l', .firstLevel, lexems'⟩ := .apart hlexems
      have happend : ComesAlike ρ (Sentence.Beside l l')
          (pure ((⟨l, .firstLevel, lexems⟩ : Sentence).append owner.name name args) : Act World Sentence)
          (pure ((⟨l', .firstLevel, lexems'⟩ : Sentence).append owner.name name args') : Act World Sentence) :=
        .pure fun _ hwithin => (hs.append owner.name name hargs).mono hwithin
      rcases word with _ | _ | next
      · exact happend
      · exact happend
      · exact hi.run (hword next rfl) hs hargs

theorem Sentence.tryCall_beside {name : String} (hname : l'.resolve name = l.resolve name)
    (hword : ∀ owner next, l.resolve name = some (owner, .alias next) → l.Agree ctx l' next) (hs : s.Beside l l' ρ s')
    (hargs : ArgsTwin ρ args args') :
    ComesAlike ρ (Sentence.Beside l l') (s.tryCall i name args) (s'.tryCall i name args') := by
  cases hs with
  | twin hs => exact .of_twins (Sentence.tryCall_tracks hi.tracks name hs hargs)
  | apart hlexems =>
      unfold tryCall
      dsimp only
      rw [hname]
      cases hresolve : l.resolve name with
      | none =>
          intro ρ₁ _ w w' _ x w₁ hrun
          cases hrun
      | some found =>
          exact .ofAct (Word.apply_beside hi found.1 name (fun next hnext => hword found.1 next (hnext ▸ hresolve))
            (.apart hlexems) hargs)

theorem Sentence.useReference_beside (reference : String)
    (hword : ∀ parts d owner next, Sentence.splitReference reference = some parts → ctx.registry.get? parts.1 = some d →
      d.resolve parts.2 = some (owner, .alias next) → l.Agree ctx l' next) (hs : s.Beside l l' ρ s')
    (hargs : ArgsTwin ρ args args') :
    ComesAlike ρ (Sentence.Beside l l') (s.useReference i ctx.registry reference args)
      (s'.useReference i ctx.registry reference args') := by
  unfold useReference
  cases hsplit : splitReference reference with
  | none => exact .of_twins (.throw _)
  | some parts =>
      dsimp only
      cases hget : ctx.registry.get? parts.1 with
      | none => exact .of_twins (.throw _)
      | some d =>
          dsimp only
          cases hresolve : d.resolve parts.2 with
          | none => exact .of_twins (.throw _)
          | some found =>
              exact .ofAct (Word.apply_beside hi found.1 parts.2
                (fun next hnext => hword parts d found.1 next hsplit hget (hnext ▸ hresolve)) hs hargs)

namespace Script

variable {body : Body} (hbody : l.Agree ctx l' body)
include hbody

theorem spliceItems_beside {round round' : Arg → Nat → Act World Sentence} {items items' : List Arg}
    (hround : ∀ ρ₁, ρ.Within ρ₁ → ∀ {item item' : Arg}, item.Twin ρ₁ item' → ∀ index,
      ActsTwin ρ₁ Sentence.Twin (round item index) (round' item' index))
    (hitems : ArgsTwin ρ items items') (hs : s.Beside l l' ρ s') (index : Nat) :
    ComesAlike ρ (Sentence.Beside l l') (spliceItems round s index items) (spliceItems round' s' index items') := by
  induction items generalizing items' ρ s s' index with
  | nil =>
      cases hitems
      exact .pure fun _ hwithin => hs.mono hwithin
  | cons item items ih =>
      cases hitems with
      | cons head tail =>
          rw [spliceItems, spliceItems]
          refine ComesAlike.bind (.of_tracks (hround ρ (fun _ _ h => h) head index) fun _ _ _ => id)
            fun ρ₁ hwithin t t' ht => ?_
          exact ih (fun ρ₂ hwithin' => hround ρ₂ fun a b hab => hwithin' a b (hwithin a b hab))
            (args_twin_mono hwithin tail) ((hs.mono hwithin).splice ht) (index + 1)

theorem call_beside {c : Call} (hc : c ∈ body.calls) (henv : env.Twin ρ env') (hs : s.Beside l l' ρ s') :
    ComesAlike ρ (Sentence.Beside l l') (call ctx i env s c) (call ctx i env' s' c) := by
  have htracks := hi.tracks
  have hasked : ∀ name ∈ c.asked, l'.resolve name = l.resolve name ∧
      ∀ owner next, l.resolve name = some (owner, .alias next) → l.Agree ctx l' next := fun name hname =>
    ⟨hbody body .refl c hc name hname, fun owner next hresolve => hbody.of_runs (.asked hc hname hresolve)⟩
  have hexprs : ∀ exprs, ComesAlike ρ ArgsTwin (evalArgs ctx i env exprs) (evalArgs ctx i env' exprs) :=
    fun exprs => .of_tracks (exprs_track htracks exprs henv) fun _ _ _ => id
  have heval : ∀ e, ComesAlike ρ Arg.Twin (eval ctx i env e) (eval ctx i env' e) :=
    fun e => .of_tracks (eval_tracks htracks e henv) fun _ _ _ => id
  cases c with
  | word name args =>
      simp only [call]
      obtain ⟨hname, hword⟩ := hasked name (List.mem_singleton.mpr rfl)
      exact (hexprs args).bind fun ρ₁ hwithin xs ys hxs =>
        (Sentence.tryCall_beside hi hname hword (hs.mono hwithin) hxs).mapError _
  | method name args =>
      simp only [call]
      refine (hexprs args).bind fun ρ₁ hwithin xs ys hxs => ?_
      unfold callMethod
      cases hmethod : Html.method? name with
      | none => exact .of_twins (.throw _)
      | some method =>
          obtain ⟨hname, hword⟩ := hasked method.word (by simp [Call.asked, hmethod])
          refine .ofAct (ComesAlike.bind (.of_tracks (method.argsFor_tracks htracks hxs) fun _ _ _ => id)
            fun ρ₂ hwithin' us vs hus => ?_)
          exact (Sentence.tryCall_beside hi hname hword ((hs.mono hwithin).mono hwithin') hus).orBreakOff _
  | append space name args =>
      simp only [call]
      exact (hexprs args).bind fun ρ₁ hwithin xs ys hxs => .pure fun ρ₂ hwithin' =>
        .mono hwithin' ((hs.mono hwithin).append space name hxs)
  | branch condition yes no =>
      simp only [call]
      refine (heval condition).bind fun ρ₁ hwithin₁ x y hxy => ComesAlike.bind
        (.of_tracks (build_tracks htracks yes (henv.mono hwithin₁) (henv.initializer_eq ▸ .mk .nil)) fun _ _ _ => id)
        fun ρ₂ hwithin₂ u v huv => ComesAlike.bind
          (.of_tracks (option_tracks htracks no ((henv.mono hwithin₁).mono hwithin₂)) fun _ _ _ => id)
          fun ρ₃ hwithin₃ o o' ho => .pure fun ρ₄ hwithin₄ => ?_
      have hs : Sentence.Beside l l' ρ₄ _ _ := (((hs.mono hwithin₁).mono hwithin₂).mono hwithin₃).mono hwithin₄
      rw [hxy.isTruthy_eq]
      split
      · exact hs.splice ((huv.mono hwithin₃).mono hwithin₄)
      · cases ho with
        | none => exact hs
        | some h => exact hs.splice (h.mono hwithin₄)
  | repeated items calls =>
      simp only [call]
      refine (heval items).bind fun ρ₁ hwithin x y hxy => .ofAct ?_
      refine spliceItems_beside hi hbody (fun ρ₂ hwithin' item item' hitem index => ?_) hxy.items (hs.mono hwithin) 0
      have hinner := withItem_twin ((henv.mono hwithin).mono hwithin') hitem index
      exact ActsTwin.orBreakOff (build_tracks htracks calls hinner (henv.initializer_eq ▸ .mk .nil)) _
  | splice sentence =>
      simp only [call]
      refine (heval sentence).bind fun ρ₁ hwithin x y hxy => ?_
      cases hxy with
      | sentence _ hlexems =>
          exact .pure fun ρ₂ hwithin' => .mono hwithin' ((hs.mono hwithin).splice (.mk hlexems))
      | _ => exact .of_twins (.throw _)
  | reference reference args =>
      simp only [call]
      exact (hexprs args).bind fun ρ₁ hwithin xs ys hxs => (Sentence.useReference_beside hi reference
        (fun parts d owner next hsplit hget hresolve => hbody.of_runs (.referred hc hsplit hget hresolve))
        (hs.mono hwithin) hxs).mapError _
  | continueWith lexicon =>
      simp only [call]
      cases ctx.registry.get lexicon with
      | error => exact .of_twins (.throw _)
      | ok found =>
          -- from here on both sentences are of the same lexicon
          have hlexems := hs.lexems
          have hlevel : s.level = s'.level := by
            cases hs with
            | twin h => cases h; rfl
            | apart => rfl
          rcases s with ⟨_, level, lexems⟩
          rcases s' with ⟨_, level', lexems'⟩
          obtain rfl : level = level' := hlevel
          exact .pure fun ρ₂ hwithin => .mono hwithin (.twin (.mk hlexems))

theorem build_beside {calls : List Call} (hcalls : ∀ c ∈ calls, c ∈ body.calls) (henv : env.Twin ρ env')
    (hs : s.Beside l l' ρ s') :
    ComesAlike ρ (Sentence.Beside l l') (build ctx i env s calls) (build ctx i env' s' calls) := by
  induction calls generalizing ρ env env' s s' with
  | nil => exact .pure fun _ hwithin => hs.mono hwithin
  | cons c calls ih =>
      rw [build, build]
      exact (call_beside hi hbody (hcalls c List.mem_cons_self) henv hs).bind fun ρ₁ hwithin t t' ht =>
        ih (fun c' hc' => hcalls c' (List.mem_cons_of_mem _ hc')) (henv.mono hwithin) ht

theorem runBody_beside {h : Initializer} (hs : s.Beside l l' ρ s') (hargs : ArgsTwin ρ args args') :
    ComesAlike ρ (Sentence.Beside l l') (runBody ctx i body h s args) (runBody ctx i body h s' args') := by
  have hbuild : ∀ {ρ₁ : Pairing}, ρ.Within ρ₁ → ComesAlike ρ₁ (Sentence.Beside l l')
      (closed (build ctx i ⟨h, [], args⟩ s body.calls)) (closed (build ctx i ⟨h, [], args'⟩ s' body.calls)) :=
    fun hwithin => (build_beside hi hbody (fun _ hc => hc) (.mk .nil (args_twin_mono hwithin hargs))
      (hs.mono hwithin)).orBreakOff _
  unfold runBody
  cases body.label with
  | none => exact hbuild fun _ _ h => h
  | some label =>
      exact ComesAlike.bind (.of_tracks (ActsTwin.write _ _) fun _ _ _ => id) fun _ hwithin _ _ _ => hbuild hwithin

end Script

end Agreement

theorem Script.interpreterWithin_foresees (ctx : Context) (l l' : Lexicon) :
    ∀ depth, (interpreterWithin ctx depth).Foresees ctx l l'
  | 0 => ⟨interpreterWithin_tracks ctx 0, fun _ _ _ => .of_twins (.throw _)⟩
  | depth + 1 => ⟨interpreterWithin_tracks ctx (depth + 1), fun hbody hs hargs =>
      runBody_beside (interpreterWithin_foresees ctx l l' depth) hbody hs hargs⟩

/-- The engine develops a lexem with the lexicon of its namespace. -/
theorem Engine.develop_eq_ok {ω : Type} {e : Engine} {b : Behaviour ω} {lexem : Lexem} {l : Lexicon} {stage : Stage ω}
    {t : Sentence} {w : ω} (htarget : e.targets.get? lexem.space = some l)
    (hdevelop : l.develop b.toInterpreter lexem stage.world = .ok t w) :
    e.develop b lexem stage = .ok t { stage with world := w } := by
  unfold Engine.develop Registry.get
  rw [htarget]
  simp only [Pass.attempt, hdevelop]

/-- Lexicons that concord develop a word alike. -/
theorem Lexicon.Concords.develop {ctx : Context} {l l' : Lexicon} {name : String} (h : l.Concords ctx l' name)
    (hdevelops : l.develops name = true) {space : String} {args args' : List Arg} {ρ : Pairing}
    (hargs : ArgsTwin ρ args args') :
    ComesAlike ρ (Sentence.Beside l l') (l.develop (Script.interpreter ctx) ⟨space, name, args⟩)
      (l'.develop (Script.interpreter ctx) ⟨space, name, args'⟩) := by
  rcases h with ⟨hnone, -⟩ | ⟨hresolve, hagree⟩
  · cases hnone.symm.trans hdevelops
  have hdevelops' : l'.develops name = true := by
    unfold develops kindOf at hdevelops ⊢
    rwa [hresolve]
  obtain ⟨owner, body, hbody, hrun⟩ :=
    @develop_of_develops World (Script.interpreter ctx) l ⟨space, name, args⟩ hdevelops
  obtain ⟨owner', body', hbody', hrun'⟩ :=
    @develop_of_develops World (Script.interpreter ctx) l' ⟨space, name, args'⟩ hdevelops'
  cases (hbody.symm.trans hresolve.symm).trans hbody'
  rw [hrun, hrun']
  exact .ofAct ((Script.interpreterWithin_foresees ctx l l' _).run (hagree owner body hbody) (.apart .nil) hargs)

/-- An outline shows a development below a lexem exactly if the lexicon of the sentence in which it stands has the word
as a compound. Where this lexicon concords with that of the namespace, the outline shows one exactly if the namespace
has a compound, and the lexems that it shows are those to which the engine develops the lexem, in whatever twin of the
world it does so. -/
theorem outline_foresees (ctx : Context) (e : Engine) {s : Sentence} {d : Nat} {w w' : World} {text : String}
    (houtline : s.outline (Script.interpreter ctx) d w = .ok text w') :
    ∃ sketch, Outlines (Script.interpreter ctx) d s.part w sketch w' ∧
      text = (Sketch.line (.sentence s) sketch .nil).text ∧
      ∀ v below, (v, below) ∈ sketch.visits → v.level = .firstLevel → 0 < v.depth →
        below.development?.isSome = v.lexicon.develops v.lexem.name ∧
        ∀ l', e.targets.get? v.lexem.space = some l' → v.lexicon.Concords ctx l' v.lexem.name →
          below.development?.isSome = l'.develops v.lexem.name ∧
          ∀ shown, below.development? = some shown → ∀ ρ stage lexem, v.world.Twin ρ stage.world → v.lexem.Twin ρ lexem →
            ∃ t stage' ρ', e.develop (Script.behaviour ctx) lexem stage = .ok t stage' ∧ ρ.Within ρ' ∧
              List.Forall₂ (Lexem.Twin ρ') shown.lexems t.lexems := by
  obtain ⟨sketch, hsketch, htext⟩ := Sentence.outline_sketch houtline
  refine ⟨sketch, hsketch, htext, fun v below hv hlevel hdepth => ?_⟩
  have hshown := hsketch.development hv hlevel hdepth
  have hsome : below.development?.isSome = v.lexicon.develops v.lexem.name := by
    split at hshown
    · next hdevelops =>
      obtain ⟨shown, -, -, heq, -⟩ := hshown
      rw [heq, hdevelops]
      rfl
    · next hdevelops =>
      rw [hshown, Bool.eq_false_iff.mpr hdevelops]
      rfl
  refine ⟨hsome, fun l' htarget hconcords => ⟨?_, fun shown heq ρ stage lexem hworld hlexem => ?_⟩⟩
  · rw [hsome]
    rcases hconcords with ⟨hnone, hnone'⟩ | ⟨hresolve, -⟩
    · rw [hnone, hnone']
    · unfold Lexicon.develops Lexicon.kindOf
      rw [hresolve]
  · have hdevelops : v.lexicon.develops v.lexem.name = true := by
      rw [← hsome, heq]
      rfl
    rw [if_pos hdevelops] at hshown
    obtain ⟨shown', t, w₁, heq', hdevelop, hlexems⟩ := hshown
    cases heq.symm.trans heq'
    obtain ⟨lexicon, level, depth, ⟨space, name, args⟩, world⟩ := v
    cases hlexem with
    | mk hargs =>
        obtain ⟨t', w₁', ρ', hdevelop', hextends, -, hbeside⟩ :=
          (hconcords.develop hdevelops hargs) ρ (fun _ _ h => h) world stage.world hworld t w₁ hdevelop
        exact ⟨t', _, ρ', Engine.develop_eq_ok htarget hdevelop', hextends.within, hlexems ▸ hbeside.lexems⟩

section Inherited

variable {ctx : Context} {known : String → Bool} {c : Call} {calls : List Call} {name : String}

theorem isPlain_of_mem (hplain : plainCalls known calls = true) (hc : c ∈ calls) : c.isPlain known = true := by
  induction calls with
  | nil => cases hc
  | cons head calls ih =>
      rw [plainCalls, Bool.and_eq_true] at hplain
      rcases List.mem_cons.mp hc with rfl | hc
      · exact hplain.1
      · exact ih hplain.2 hc

theorem known_of_asked (hplain : c.isPlain known = true) (hname : name ∈ c.asked) : known name = true := by
  cases c with
  | word called args =>
      rw [Call.isPlain, Bool.and_eq_true] at hplain
      cases List.mem_singleton.mp hname
      exact hplain.1
  | method => simp [Call.isPlain] at hplain
  | _ => cases hname

/-- In a lexicon without ambiguity every word concords with its definition where it comes from. -/
theorem Lexicon.Expandable.concords {d owner : Lexicon} (hd : d.Expandable) {word : Word}
    (hresolve : d.resolve name = some (owner, word)) : d.Concords ctx owner name := by
  obtain ⟨howner, hget⟩ := resolve_eq_some hresolve
  have hinherited : ∀ {o called}, o ∈ owner.chain → o.hasWord called = true → owner.resolve called = d.resolve called :=
    fun ho hcalled => (hd.resolve_inherited howner ho hcalled).trans
      (hd.resolve_inherited d.mem_chain_self (mem_chain_trans d howner ho) hcalled).symm
  refine .inr ⟨hinherited owner.mem_chain_self (hasWord_of_get? owner.mem_chain_self hget),
    fun o body hbody next hnext => ?_⟩
  cases hresolve.symm.trans hbody
  -- whatever is run asks for words of a lexicon of the chain of the owner
  have hplain : ∃ o ∈ owner.chain, plainCalls o.hasWord next.calls = true := by
    induction hnext with
    | refl => exact ⟨owner, owner.mem_chain_self, (hd.bodies owner howner).plain hget rfl⟩
    | tail _ hruns ih =>
        obtain ⟨o, ho, hplain⟩ := ih
        cases hruns with
        | asked hcall hname hfound =>
            have hcalled := known_of_asked (isPlain_of_mem hplain hcall) hname
            rw [hd.resolve_inherited d.mem_chain_self (mem_chain_trans d howner ho) hcalled] at hfound
            obtain ⟨ho', hget'⟩ := resolve_eq_some hfound
            have ho' := mem_chain_trans owner ho ho'
            exact ⟨_, ho', (hd.bodies _ (mem_chain_trans d howner ho')).plain hget' rfl⟩
        | referred hcall => simpa [Call.isPlain] using isPlain_of_mem hplain hcall
  obtain ⟨o, ho, hplain⟩ := hplain
  exact fun c hc called hcalled => hinherited ho (known_of_asked (isPlain_of_mem hplain hc) hcalled)

end Inherited

/-- A vocabulary with a word that can be developed. -/
def choir : Lexicon := ⟨"choir", none, [("hum", .atom), ("sing", .compound ⟨none, [.word "hum" [.arg 0]]⟩)]⟩

/-- A dialect with a word of its own. -/
def chapel : Lexicon := ⟨"chapel", some choir, [("pray", .compound ⟨none, [.word "sing" [.str "amen"]]⟩)]⟩

/-- A lexicon without words. -/
def hush : Lexicon := ⟨"hush", none, []⟩

/-- An engine that knows all of them. -/
def audience : Engine := ⟨⟨[("chapel", chapel), ("choir", choir), ("hush", hush)]⟩, .default⟩

theorem chapel_expandable : chapel.Expandable where
  names := by decide
  words := by decide
  bodies := by
    intro owner howner entry hentry body hbody
    rcases List.mem_cons.mp howner with rfl | howner
    · cases List.mem_singleton.mp hentry
      cases hbody
      rfl
    · cases List.mem_singleton.mp howner
      simp only [List.mem_cons, List.not_mem_nil, or_false] at hentry
      rcases hentry with rfl | rfl
      · cases hbody
      · cases hbody
        rfl

/-- A word of the parent in a sentence of the dialect: the development that is shown is that of the engine. -/
theorem outline_foresees_chapel :
    let ctx : Context := ⟨Registry.empty, [], []⟩
    let sung : Lexem := ⟨"choir", "sing", [.str "la"]⟩
    let s : Sentence := ⟨chapel, .firstLevel, [sung, ⟨"chapel", "pray", []⟩]⟩
    ∃ (text : String) (w : World) (sketch : Sketch World) (v : Visit World) (below shown : Sketch World) (t : Sentence)
      (stage : Stage World) (ρ : Pairing), s.outline (Script.interpreter ctx) 1 World.new = .ok text w ∧
      text = (Sketch.line (.sentence s) sketch .nil).text ∧ (v, below) ∈ sketch.visits ∧ v.lexem = sung ∧
      below.development? = some shown ∧
      audience.develop (Script.behaviour ctx) sung ⟨Host.new, #[], World.new⟩ = .ok t stage ∧
      List.Forall₂ (Lexem.Twin ρ) shown.lexems t.lexems := by
  intro ctx sung s
  obtain ⟨text, w, houtline⟩ : ∃ text w, s.outline (Script.interpreter ctx) 1 World.new = .ok text w := ⟨_, _, rfl⟩
  obtain ⟨sketch, hsketch, htext, hvisits⟩ := outline_foresees ctx audience houtline
  cases hsketch with
  | @lexem _ _ _ _ _ _ _ _ _ nested development rest hargs _ _ =>
      cases hargs with
      | otherArg _ hargs =>
          cases hargs
          obtain ⟨hsome, hall⟩ := hvisits ⟨chapel, .firstLevel, 1, sung, World.new⟩ _ List.mem_cons_self rfl Nat.one_pos
          obtain ⟨shown, hshown⟩ := Option.isSome_iff_exists.mp (hsome.trans rfl)
          have hscalar : sung.Twin (fun _ _ => False) sung := .mk (.cons .str .nil)
          have hworld : World.new.Twin (fun _ _ => False) World.new :=
            ⟨fun h => h.elim, fun h => h.elim, fun h => h.elim, fun h => h.elim, fun h => h.elim, .nil⟩
          obtain ⟨t, stage, ρ, hdevelop, -, hlexems⟩ := (hall choir rfl (chapel_expandable.concords rfl)).2 shown hshown _
            ⟨Host.new, #[], World.new⟩ sung hworld hscalar
          exact ⟨text, w, _, _, _, shown, t, stage, ρ, houtline, htext, List.mem_cons_self, rfl, hshown, hdevelop, hlexems⟩

/-- A word of another lexicon that is spliced into a sentence: nothing is shown below it, although the engine develops
it. -/
theorem outline_overlooks :
    let ctx : Context := ⟨Registry.empty, [], []⟩
    let sung : Lexem := ⟨"choir", "sing", [.str "la"]⟩
    (∃ w, Sentence.outline (Script.interpreter ctx) 1 ⟨hush, .firstLevel, [sung]⟩ World.new =
      .ok ("Sentence hush (first-level, 1 lexems)\n" ++ "  choir:sing(\"la\")\n") w) ∧
    choir.develops "sing" = true ∧ audience.targets.get? "choir" = some choir ∧
    ∃ stage, audience.develop (Script.behaviour ctx) sung ⟨Host.new, #[], World.new⟩ =
      .ok ⟨choir, .firstLevel, [⟨"choir", "hum", [.str "la"]⟩]⟩ stage :=
  ⟨⟨_, rfl⟩, rfl, rfl, _, rfl⟩

end Parlance
