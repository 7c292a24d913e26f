import Parlance.Pragmatics.Basic
import Parlance.Proofs.Lexicon.Acts
import Parlance.Proofs.Lexicon.Appending
import Parlance.Proofs.Script.Tracking

/-! Words carried out one by one, and all at once. A facade expands a word on a new sentence and carries out what comes
of it before the next word is expanded; or else all words are called on one sentence, which is carried out afterwards.
If the bodies of the lexicon only extend the sentence on which they are run, what a word comes to does not depend on the
sentence, and so both ways are the same; only the identities that are drawn on the way come in another order. -/

namespace Parlance

/-- Whether a call extends a sentence by a word, by a lexem or by a sentence of its own. -/
def Call.chains : Call → Bool
  | .word .. | .append .. | .splice _ => true
  | _ => false

/-- All bodies of a lexicon and its ancestors only extend the sentence on which they are run. -/
def Lexicon.Chaining (l : Lexicon) : Prop :=
  ∀ owner ∈ l.chain, ∀ entry ∈ owner.words, ∀ body ∈ entry.2.body?, ∀ c ∈ body.calls, c.chains = true

/-- Calls words on a sentence, one after the other. -/
def Sentence.tryCalls {ω : Type} (i : Interpreter ω) (s : Sentence) (calls : List (String × List Arg)) :
    Attempt LexiconError ω Sentence := calls.foldlM (fun s c => s.tryCall i c.1 c.2) s

namespace Pragmatics

variable {ω σ : Type} (p : Pragmatics ω σ) (render : Identity → Arg → Nat → Act ω Sentence) (i : Interpreter ω)

/-- Calls words one by one, and carries out each before the next. -/
def sayEach (lexicon : Lexicon) (calls : List (String × List Arg)) : Deed ω σ Unit :=
  calls.forM fun c => p.say render i lexicon c.1 c.2

/-- Calls words on one sentence, and carries it out. -/
def sayTogether (lexicon : Lexicon) (calls : List (String × List Arg)) : Deed ω σ Unit := do
  p.run render (← Deed.attempt ((Sentence.empty lexicon .atomic).tryCalls i calls))

end Pragmatics

theorem Call.chains_appends {c : Call} (h : c.chains = true) : c.appends = true := by
  cases c <;> first | rfl | cases h

theorem Lexicon.Chaining.appending {l : Lexicon} (h : l.Chaining) : l.Appending :=
  fun owner howner entry hentry body hbody c hc => Call.chains_appends (h owner howner entry hentry body hbody c hc)

theorem Script.interpreter_extends {ctx : Context} {l : Lexicon} (hl : l.Chaining) : (interpreter ctx).Lengthens l :=
  interpreterWithin_extends hl.appending _

variable {σ : Type}

/-- Scenes that are the same but for identities; what that is for subjects is left open. -/
structure Scene.Twin (S : Pairing → σ → σ → Prop) (ρ : Pairing) (x y : Scene World σ) : Prop where
  subject : S ρ x.subject y.subject
  inner : NamesTwin ρ x.scope.inner y.scope.inner
  outer : List.Forall₂ (NamesTwin ρ) x.scope.outer y.scope.outer
  world : x.world.Twin ρ y.world

def Scene.frame (S : Pairing → σ → σ → Prop) : Frame (Scene World σ) := ⟨Scene.Twin S, Scene.world⟩

/-- Subjects stay the same as more identities are paired. -/
def Lasts (S : Pairing → σ → σ → Prop) : Prop := ∀ (ρ ρ' : Pairing) (a b : σ), ρ.Within ρ' → S ρ a b → S ρ' a b

/-- Two deeds that do the same but for identities. -/
abbrev DeedsTwin {α : Type} (S : Pairing → σ → σ → Prop) (ρ : Pairing) (Q : Pairing → α → α → Prop)
    (m m' : Deed World σ α) : Prop := Tracks (Scene.frame S) ρ Q m m'

/-- The handlers do the same for arguments, subjects and scopes that are the same but for identities. -/
def Pragmatics.Tracks (p : Pragmatics World σ) (S : Pairing → σ → σ → Prop) : Prop :=
  ∀ {word : String} {handler : List Arg → Deed World σ Unit}, p.handlers.get? word = some handler →
    ∀ {ρ : Pairing} {args args' : List Arg}, ArgsTwin ρ args args' →
      DeedsTwin S ρ (fun _ _ _ => True) (handler args) (handler args')

section Deeds

variable {S : Pairing → σ → σ → Prop} {ρ ρ' : Pairing} {α : Type} {Q : Pairing → α → α → Prop}

theorem Scene.Twin.withWorld (hS : Lasts S) {x y : Scene World σ} (h : x.Twin S ρ y) (hwithin : ρ.Within ρ')
    {w w' : World} (hw : w.Twin ρ' w') : Scene.Twin S ρ' { x with world := w } { y with world := w' } :=
  ⟨hS _ _ _ _ hwithin h.subject, h.inner.mono hwithin, h.outer.imp fun _ _ hframe => hframe.mono hwithin, hw⟩

theorem DeedsTwin.act (hS : Lasts S) {m m' : Act World α} (h : ActsTwin ρ Q m m') :
    DeedsTwin S ρ Q (Deed.act m) (Deed.act m') := by
  intro ρ₁ hwithin x y hxy
  have hends := h ρ₁ hwithin x.world y.world hxy.world
  unfold Deed.act
  generalize m x.world = r, m' y.world = r' at hends
  cases hends with
  | ok hextends hstate hresult => exact .ok hextends (hxy.withWorld hS hextends.within hstate) hresult
  | error hextends hstate => exact .error hextends (hxy.withWorld hS hextends.within hstate)

namespace Pragmatics

variable {p : Pragmatics World σ} {ctx : Context} {output : Sentence → Deed World σ Unit}
variable (hS : Lasts S) (hp : p.Tracks S)
variable (houtput : ∀ {ρ : Pairing} {s s' : Sentence}, s.Twin ρ s' →
  DeedsTwin S ρ (fun _ _ _ => True) (output s) (output s'))
include hS houtput

theorem branch_tracks {args args' : List Arg} (h : ArgsTwin ρ args args') :
    DeedsTwin S ρ (fun _ _ _ => True) (branch (Script.callRender ctx) output args)
      (branch (Script.callRender ctx) output args') := by
  have hcondition := argAt_twin h 0
  unfold branch
  dsimp only
  rw [hcondition.isTruthy_eq]
  have hchosen := argAt_twin h (if (argAt args' 0).isTruthy then 1 else 2)
  generalize argAt args (if (argAt args' 0).isTruthy then 1 else 2) = a,
    argAt args' (if (argAt args' 0).isTruthy then 1 else 2) = a' at hchosen
  cases hchosen with
  | null => exact .pure fun _ _ => trivial
  | sentence _ hlexems => exact houtput (.mk hlexems)
  | render hpaired =>
      exact (DeedsTwin.act hS (Script.callRender_tracks ctx hpaired hcondition 0)).bind fun _ _ _ _ hs => houtput hs
  | _ => exact .throw _

theorem repeated_tracks {f f' : Identity} (hf : ρ f f') {items items' : List Arg} (h : ArgsTwin ρ items items')
    (index : Nat) : DeedsTwin S ρ (fun _ _ _ => True) (repeated (Script.callRender ctx) output f index items)
      (repeated (Script.callRender ctx) output f' index items') := by
  induction items generalizing items' ρ index with
  | nil =>
      cases h
      exact .pure fun _ _ => trivial
  | cons item items ih =>
      cases h with
      | cons head tail =>
          exact (DeedsTwin.act hS (Script.callRender_tracks ctx hf head index)).bind fun ρ₁ hwithin s s' hs =>
            (houtput hs).bind fun ρ₂ hwithin' _ _ _ =>
              ih (hwithin' _ _ (hwithin _ _ hf)) (args_twin_mono hwithin' (args_twin_mono hwithin tail)) (index + 1)

theorem each_tracks {args args' : List Arg} (h : ArgsTwin ρ args args') :
    DeedsTwin S ρ (fun _ _ _ => True) (each (Script.callRender ctx) output args)
      (each (Script.callRender ctx) output args') := by
  have hfunction := argAt_twin h 1
  unfold each
  generalize argAt args 1 = a, argAt args' 1 = a' at hfunction
  cases hfunction with
  | render hpaired => exact repeated_tracks hS houtput hpaired (argAt_twin h 0).items 0
  | _ => exact .throw _

include hp

theorem perform_tracks {lexem lexem' : Lexem} (h : lexem.Twin ρ lexem') :
    DeedsTwin S ρ (fun _ _ _ => True) (p.perform (Script.callRender ctx) output lexem)
      (p.perform (Script.callRender ctx) output lexem') := by
  cases h with
  | @mk space name args args' hargs =>
      unfold perform
      split
      · cases hhandler : p.handlers.get? name with
        | some handler => exact hp hhandler hargs
        | none =>
            dsimp only
            split
            · exact branch_tracks hS houtput hargs
            split
            · exact each_tracks hS houtput hargs
            · exact .pure fun _ _ => trivial
      · exact .pure fun _ _ => trivial

end Pragmatics

theorem Pragmatics.outputWithin_tracks {p : Pragmatics World σ} {ctx : Context} (hS : Lasts S) (hp : p.Tracks S)
    (depth : Nat) {ρ : Pairing} {s s' : Sentence} (h : s.Twin ρ s') :
    DeedsTwin S ρ (fun _ _ _ => True) (p.outputWithin (Script.callRender ctx) depth s)
      (p.outputWithin (Script.callRender ctx) depth s') := by
  induction depth generalizing ρ s s' with
  | zero => exact .throw _
  | succ depth ih =>
      cases h with
      | @mk _ _ lexems lexems' hlexems =>
          change DeedsTwin S ρ _ (lexems.forM (p.perform _ _)) (lexems'.forM (p.perform _ _))
          induction lexems generalizing lexems' ρ with
          | nil =>
              cases hlexems
              exact .pure fun _ _ => trivial
          | cons lexem lexems ihs =>
              cases hlexems with
              | cons head tail =>
                  exact (perform_tracks hS hp ih head).bind fun _ hwithin _ _ _ => ihs (lexems_twin_mono hwithin tail)

end Deeds

/-- The identities that a world has given out, each paired with itself. -/
def World.known (w : World) : Pairing := fun a b => a = b ∧ a.number < w.cells.size

/-- Two deeds have come to the same result, or to the same error, in scenes that are the same but for identities given
out since. -/
inductive EndsSame (S : Pairing → σ → σ → Prop) (ρ : Pairing) :
    EStateM.Result (Halt PragmaticsError) (Scene World σ) Unit →
      EStateM.Result (Halt PragmaticsError) (Scene World σ) Unit → Prop
  | ok {ρ₁ : Pairing} {x y : Scene World σ} (hwithin : ρ.Within ρ₁) (hscene : x.Twin S ρ₁ y) :
      EndsSame S ρ (.ok () x) (.ok () y)
  | error {ρ₁ : Pairing} {err : Halt PragmaticsError} {x y : Scene World σ} (hwithin : ρ.Within ρ₁)
      (hscene : x.Twin S ρ₁ y) : EndsSame S ρ (.error err x) (.error err y)

theorem EndsSame.mono {S : Pairing → σ → σ → Prop} {ρ ρ' : Pairing}
    {r r' : EStateM.Result (Halt PragmaticsError) (Scene World σ) Unit} (h : EndsSame S ρ' r r')
    (hwithin : ρ.Within ρ') : EndsSame S ρ r r' := by
  cases h with
  | ok hwithin' hscene => exact .ok (fun a b hab => hwithin' a b (hwithin a b hab)) hscene
  | error hwithin' hscene => exact .error (fun a b hab => hwithin' a b (hwithin a b hab)) hscene

/-- What words come to, one after the other, each on an empty sentence. -/
inductive Expands (i : Interpreter World) (l : Lexicon) :
    List (String × List Arg) → World → List Sentence → World → Prop
  | nil {w : World} : Expands i l [] w [] w
  | cons {c : String × List Arg} {calls : List (String × List Arg)} {part : Sentence} {parts : List Sentence}
      {w w₁ w₂ : World} (hword : (Sentence.empty l .atomic).tryCall i c.1 c.2 w = .ok part w₁)
      (hrest : Expands i l calls w₁ parts w₂) : Expands i l (c :: calls) w (part :: parts) w₂

section Expanding

variable {i : Interpreter World} {l : Lexicon} {calls : List (String × List Arg)}

/-- What words come to when they are called on one sentence. -/
theorem expands_of_tryCalls (hi : i.Lengthens l) {s t : Sentence} {w w' : World} (hlexicon : s.lexicon = l)
    (hlevel : s.level = .atomic) (h : s.tryCalls i calls w = .ok t w') :
    ∃ parts, Expands i l calls w parts w' ∧ t.lexems = s.lexems ++ parts.flatMap Sentence.lexems := by
  induction calls generalizing s w with
  | nil =>
      cases h
      exact ⟨[], .nil, by simp⟩
  | cons c calls ih =>
      unfold Sentence.tryCalls at h
      rw [List.foldlM_cons] at h
      obtain ⟨s₁, w₁, hcall, hlater⟩ := Act.bind_eq_ok.mp h
      rw [Sentence.tryCall_extends hi hlexicon, hlevel] at hcall
      change EStateM.map s.splice _ w = _ at hcall
      unfold EStateM.map at hcall
      split at hcall
      next part w₂ hword =>
        cases hcall
        obtain ⟨parts, hparts, heq⟩ := ih (s := s.splice part) hlexicon hlevel hlater
        refine ⟨part :: parts, .cons hword hparts, ?_⟩
        rw [heq, Sentence.splice, List.flatMap_cons, List.append_assoc]
      next => cases hcall

/-- Words that are defined do not fail to be found. -/
theorem tryCalls_breaks_off (hi : i.Lengthens l) (hdefined : ∀ c ∈ calls, l.hasWord c.1 = true) {s : Sentence}
    {w : World} (hlexicon : s.lexicon = l) {err : Halt LexiconError} {w' : World}
    (h : s.tryCalls i calls w = .error err w') : ∃ t, err = .trouble t := by
  induction calls generalizing s w with
  | nil => cases h
  | cons c calls ih =>
      obtain ⟨⟨owner, word⟩, hresolve⟩ := Option.isSome_iff_exists.mp (hdefined c List.mem_cons_self)
      unfold Sentence.tryCalls at h
      rw [List.foldlM_cons] at h
      change EStateM.bind _ _ w = _ at h
      rw [Sentence.tryCall_extends hi hlexicon, EStateM.bind] at h
      split at h
      next t w₁ hcall =>
        obtain ⟨part, rfl⟩ : ∃ part, t = s.splice part := by
          change EStateM.map s.splice _ w = _ at hcall
          unfold EStateM.map at hcall
          split at hcall
          · cases hcall
            exact ⟨_, rfl⟩
          · cases hcall
        exact ih (fun c' hc' => hdefined c' (List.mem_cons_of_mem _ hc')) (s := s.splice part) hlexicon h
      next err' w₁ hcall =>
        cases h
        change EStateM.map s.splice _ w = _ at hcall
        simp only [Sentence.tryCall, Sentence.empty, hresolve] at hcall
        unfold EStateM.map Attempt.ofAct at hcall
        split at hcall
        · cases hcall
        · next hinner =>
          cases hcall
          split at hinner
          · cases hinner
          · cases hinner
            exact ⟨_, rfl⟩

end Expanding

section Worlds

variable {ρ₀ ρ ρ₁ : Pairing} {w w' w₁ w₁' v v₁ : World}

theorem World.Twin.grow (h : w.Twin ρ w') (hw : w.Grows w₁) (hw' : w'.Grows w₁') : w₁.Twin ρ w₁' where
  functional := h.functional
  injective := h.injective
  left hab := Nat.lt_of_lt_of_le (h.left hab) hw.size
  right hab := Nat.lt_of_lt_of_le (h.right hab) hw'.size
  cells hab := by
    rw [hw.cells (h.left hab), hw'.cells (h.right hab)]
    exact h.cells hab
  globals := by
    rw [hw.globals, hw'.globals]
    exact h.globals

/-- What has been paired with an earlier state of a world may be paired with what has become of it, as long as nothing
else has been paired with the same. -/
theorem World.Twin.join (h : w.Twin ρ w') (hseed : ρ₀.Within ρ) (hextends : Extends ρ₀ w v ρ₁ w₁ v₁)
    (hpart : w₁.Twin ρ₁ v₁) (hgrows : v₁.Grows w')
    (hfree : ∀ a b, ρ a b → v.cells.size ≤ b.number → v₁.cells.size ≤ b.number) :
    w₁.Twin (fun a b => ρ a b ∨ ρ₁ a b) w' where
  functional := by
    have hmixed : ∀ {a b b'}, ρ a b → ρ₁ a b' → b = b' := by
      intro a b b' hab hab'
      rcases hextends.fresh hab' with hold | ⟨hleft, -⟩
      · exact h.functional hab (hseed _ _ hold)
      · exact absurd (h.left hab) (Nat.not_lt.mpr hleft)
    rintro a b b' (hab | hab) (hab' | hab')
    · exact h.functional hab hab'
    · exact hmixed hab hab'
    · exact (hmixed hab' hab).symm
    · exact hpart.functional hab hab'
  injective := by
    have hmixed : ∀ {a a' b}, ρ a b → ρ₁ a' b → a = a' := by
      intro a a' b hab hab'
      rcases hextends.fresh hab' with hold | ⟨-, hright⟩
      · exact h.injective hab (hseed _ _ hold)
      · exact absurd (hpart.right hab') (Nat.not_lt.mpr (hfree a b hab hright))
    rintro a a' b (hab | hab) (hab' | hab')
    · exact h.injective hab hab'
    · exact hmixed hab hab'
    · exact (hmixed hab' hab).symm
    · exact hpart.injective hab hab'
  left := by
    rintro a b (hab | hab)
    · exact Nat.lt_of_lt_of_le (h.left hab) hextends.left.size
    · exact hpart.left hab
  right := by
    rintro a b (hab | hab)
    · exact h.right hab
    · exact Nat.lt_of_lt_of_le (hpart.right hab) hgrows.size
  cells := by
    rintro a b (hab | hab)
    · rw [hextends.left.cells (h.left hab)]
      exact (h.cells hab).mono fun _ _ => .inl
    · rw [hgrows.cells (hpart.right hab)]
      exact (hpart.cells hab).mono fun _ _ => .inr
  globals := by
    rw [hextends.left.globals]
    exact h.globals.mono fun _ _ => .inl

end Worlds

namespace Pragmatics

variable {S : Pairing → σ → σ → Prop} {p : Pragmatics World σ} {ctx : Context} {lexicon : Lexicon}

/-- What words come to is carried out part by part. -/
theorem run_flatMap {render : Identity → Arg → Nat → Act World Sentence} {s : Sentence} {parts : List Sentence}
    (h : s.lexems = parts.flatMap Sentence.lexems) : p.run render s = parts.forM (p.run render) := by
  have hrun : ∀ t : Sentence, p.run render t = t.lexems.forM (p.perform render (p.outputWithin render 9999)) :=
    fun _ => rfl
  rw [hrun, h]
  induction parts generalizing s with
  | nil => rfl
  | cons part parts ih =>
      have happend : (part.lexems ++ parts.flatMap Sentence.lexems).forM (p.perform render (p.outputWithin render 9999)) =
          (p.run render part >>= fun _ => _) := List.forM_append
      rw [List.flatMap_cons, happend]
      exact bind_congr fun _ => ih (s := ⟨s.lexicon, s.level, _⟩) rfl

theorem Expands.grows {calls : List (String × List Arg)} {parts : List Sentence} {v vn w : World} {ρ : Pairing}
    (h : Expands (Script.interpreter ctx) lexicon calls v parts vn) (hw : w.Twin ρ v)
    (hcalls : ∀ c ∈ calls, ArgsTwin ρ c.2 c.2) : v.Grows vn := by
  induction h generalizing w ρ with
  | nil => exact .refl _
  | @cons c calls part parts v v₁ vn hword hrest ih =>
      have hends := Sentence.tryCall_tracks (Script.interpreter_tracks ctx) c.1 (.empty ρ lexicon .atomic)
        (hcalls c List.mem_cons_self) ρ (fun _ _ h => h) w v hw
      rw [hword] at hends
      generalize Sentence.tryCall _ _ _ _ w = r at hends
      cases hends with
      | ok hextends hstate hresult =>
          have hlater := ih hstate fun c' hc' =>
            args_twin_mono hextends.within (hcalls c' (List.mem_cons_of_mem _ hc'))
          exact hextends.right.trans hlater

/-- Words that are carried out one by one, beside the same words expanded before: the worlds and scenes stay twins. -/
theorem says_track (hS : Lasts S) (hp : p.Tracks S) {calls : List (String × List Arg)} {parts : List Sentence}
    {v vn : World} (h : Expands (Script.interpreter ctx) lexicon calls v parts vn) {ρ₀ ρ : Pairing}
    {x y : Scene World σ} (hscene : x.Twin S ρ y) (hseed : ρ₀.Within ρ) (hworld : x.world.Twin ρ₀ v)
    (hcalls : ∀ c ∈ calls, ArgsTwin ρ₀ c.2 c.2) (hlater : vn.Grows y.world)
    (hfree : ∀ a b, ρ a b → v.cells.size ≤ b.number → vn.cells.size ≤ b.number) :
    EndsSame S ρ (p.sayEach (Script.callRender ctx) (Script.interpreter ctx) lexicon calls x)
      (parts.forM (p.run (Script.callRender ctx)) y) := by
  induction h generalizing ρ x y with
  | nil => exact .ok (fun _ _ h => h) hscene
  | @cons c calls part parts v v₁ vn hword hrest ih =>
      have hrests : ∀ c' ∈ calls, ArgsTwin ρ₀ c'.2 c'.2 := fun c' hc' => hcalls c' (List.mem_cons_of_mem _ hc')
      -- the word is expanded now, and has been expanded before: both times it comes to the same
      have hends := Sentence.tryCall_tracks (Script.interpreter_tracks ctx) c.1 (.empty ρ₀ lexicon .atomic)
        (hcalls c List.mem_cons_self) ρ₀ (fun _ _ h => h) x.world v hworld
      rw [hword] at hends
      change EndsSame S ρ (EStateM.bind (EStateM.bind (Deed.attempt _) (p.run _)) _ x) (EStateM.bind _ _ y)
      unfold EStateM.bind Deed.attempt
      dsimp only
      generalize Sentence.tryCall _ _ _ _ x.world = r at hends
      cases hends with
      | @ok part' _ w₁ _ ρ₁ hextends hstate hresult =>
          have hgrows := Expands.grows hrest hstate fun c' hc' => args_twin_mono hextends.within (hrests c' hc')
          have hjoined := hscene.world.join hseed hextends hstate (hgrows.trans hlater) fun a b hab hb =>
            Nat.le_trans hgrows.size (hfree a b hab hb)
          have htwin := hscene.withWorld hS (fun _ _ => .inl) hjoined
          have hrun : EndsTwin _ _ _ _ _ (p.run (Script.callRender ctx) part' { x with world := w₁ })
              (p.run (Script.callRender ctx) part y) := outputWithin_tracks hS hp depthLimit
            (hresult.mono fun _ _ => .inr) _ (fun _ _ h => h) _ _ htwin
          dsimp only
          generalize p.run (Script.callRender ctx) part' { x with world := w₁ } = r,
            p.run (Script.callRender ctx) part y = r' at hrun
          cases hrun with
          | error hextends' hstate' => exact .error (fun a b hab => hextends'.within a b (.inl hab)) hstate'
          | @ok _ _ x₂ y₂ ρ₂ hextends' hstate' _ =>
              have hseed₂ : ρ.Within ρ₂ := fun a b hab => hextends'.within a b (.inl hab)
              refine .mono (ih hstate' (fun a b hab => hseed₂ a b (hseed a b hab))
                (hworld.grow (hextends.left.trans hextends'.left) hextends.right) hrests (hlater.trans hextends'.right)
                fun a b hab hb => ?_) hseed₂
              rcases hextends'.fresh hab with (hold | hnew) | ⟨-, hright⟩
              · exact hfree a b hold (Nat.le_trans hextends.right.size hb)
              · exact absurd (hstate.right hnew) (Nat.not_lt.mpr hb)
              · exact Nat.le_trans hlater.size hright

/-- A vocabulary with a word that says what it is given, and then something of its own. -/
def salon : Lexicon :=
  ⟨"ui", none, [("greet", .compound ⟨none, [.word "say" [.arg 0], .splice (.sentence [.word "say" [.str "!"]] none none)]⟩),
    ("if", .atom), ("say", .atom)]⟩

/-- A greeting, a branch that is none, and another text. -/
def visit : List (String × List Arg) :=
  [("greet", [.str "a"]), ("if", [.bool true, .str "b"]), ("say", [.str "c"])]

/-- Words are told to a list of texts. -/
def recording : Pragmatics World (List String) :=
  (Pragmatics.new.addLexicon salon).handle "say" fun args => Deed.edit (· ++ [(argAt args 0).toText])

/-- Scripts of the vocabulary need to know nothing else. -/
def parlour : Context := ⟨Registry.empty, [], []⟩

end Pragmatics

end Parlance
