import Parlance.Proofs.Lexicon.Plain
import Parlance.Script.Behaviour

/-! Word calls that only append. A body that calls words on the sentence it is run on, appends lexems to it and splices
other sentences into it never looks at what is already there, and neither do the bodies of the words that it calls. So
what a word does to a sentence is what it does to the empty sentence of the same lexicon and level, put behind the
lexems that are there; it fails and breaks off where it does on the empty sentence. -/

namespace Parlance

/-- Whether a call extends a sentence by a word of its lexicon, by a lexem, or by sentences of its own. -/
def Call.appends : Call → Bool
  | .reference .. | .continueWith _ => false
  | _ => true

/-- All bodies of a lexicon and its ancestors only extend the sentence on which they are run. -/
def Lexicon.Appending (l : Lexicon) : Prop :=
  ∀ owner ∈ l.chain, ∀ entry ∈ owner.words, ∀ body ∈ entry.2.body?, ∀ c ∈ body.calls, c.appends = true

/-- The bodies of all its lexicons only extend the sentence on which they are run. -/
def Registry.Appending (registry : Registry) : Prop :=
  ∀ name l, registry.get? name = some l → l.Appending

/-- An action does to a sentence what it does to the empty sentence of the same lexicon and level, behind the lexems
that are there. It fails and breaks off where it does there, in the same way. -/
def Sentence.Appends {ε ω : Type} (action : Sentence → Attempt ε ω Sentence) (s : Sentence) : Prop :=
  ∀ w, match action (empty s.lexicon s.level) w with
    | .ok t w' => action s w = .ok ⟨s.lexicon, s.level, s.lexems ++ t.lexems⟩ w'
    | .error halt w' => action s w = .error halt w'

section Growing

variable {ε ε' α β : Type} {s t : Sentence} {l : Lexicon} {level : Level}

theorem Attempt.ofAct_map (f : α → β) (m : Act World α) :
    (Attempt.ofAct (f <$> m) : Attempt ε World β) = f <$> Attempt.ofAct m := by
  funext w
  change Attempt.ofAct (EStateM.map f m) w = EStateM.map f (Attempt.ofAct m) w
  unfold Attempt.ofAct EStateM.map
  dsimp only
  cases m w <;> rfl

theorem Attempt.mapError_map (f : α → β) (g : ε → ε') (m : Attempt ε World α) :
    (f <$> m).mapError g = f <$> m.mapError g := by
  funext w
  change Attempt.mapError g (EStateM.map f m) w = EStateM.map f (m.mapError g) w
  unfold Attempt.mapError EStateM.map
  dsimp only
  rcases m w with _ | ⟨_ | _, _⟩ <;> rfl

theorem Attempt.orBreakOff_map (f : α → β) (message : ε → String) (m : Attempt ε World α) :
    (f <$> m).orBreakOff message = f <$> m.orBreakOff message := by
  funext w
  change Attempt.orBreakOff message (EStateM.map f m) w = EStateM.map f (m.orBreakOff message) w
  unfold Attempt.orBreakOff EStateM.map
  dsimp only
  rcases m w with _ | ⟨_ | _, _⟩ <;> rfl

theorem Sentence.splice_splice (s t u : Sentence) : (s.splice t).splice u = s.splice (t.splice u) := by
  simp [splice, List.append_assoc]

theorem Sentence.splice_empty (s : Sentence) : s.splice (empty s.lexicon s.level) = s := by
  cases s
  simp [splice, empty]

/-- An action appends if what it comes to on a sentence is the sentence, extended by what it comes to on an empty one. -/
theorem Sentence.Appends.of_map {ω : Type} {action : Sentence → Attempt ε ω Sentence}
    (h : action s = s.splice <$> action (empty s.lexicon s.level)) : s.Appends action := by
  intro w
  rw [h]
  change match action _ w with
    | .ok _ _ => EStateM.map _ _ w = _
    | .error _ _ => EStateM.map _ _ w = _
  unfold EStateM.map
  cases action (empty s.lexicon s.level) w <;> rfl

end Growing

/-- A word of the lexicon extends a sentence by what it comes to on an empty one. -/
def Interpreter.Lengthens (i : Interpreter World) (l : Lexicon) : Prop :=
  ∀ (owner : Lexicon) (word : Word) (name : String) (s : Sentence) (args : List Arg), s.lexicon = l →
    l.resolve name = some (owner, word) →
    word.apply i owner s name args = s.splice <$> word.apply i owner (Sentence.empty l s.level) name args

section Extending

variable {i : Interpreter World} {l : Lexicon} (hi : i.Lengthens l) {ctx : Context} {env : Env}

/-- Sentences of one round after the other, spliced into a sentence. -/
theorem Script.spliceItems_extends (round : Arg → Nat → Act World Sentence) (items : List Arg) (s : Sentence)
    (index : Nat) :
    spliceItems round s index items = s.splice <$> spliceItems round (Sentence.empty s.lexicon s.level) index items := by
  induction items generalizing s index with
  | nil =>
      simp only [spliceItems, map_pure]
      rw [s.splice_empty]
  | cons item items ih =>
      simp only [spliceItems, map_bind]
      refine bind_congr fun produced => ?_
      rw [ih (s.splice produced), ih ((Sentence.empty s.lexicon s.level).splice produced), Functor.map_map]
      exact congrArg (· <$> _) (funext fun u => s.splice_splice _ u)

include hi

theorem Sentence.tryCall_extends {s : Sentence} (hs : s.lexicon = l) (name : String) (args : List Arg) :
    s.tryCall i name args = s.splice <$> (empty l s.level).tryCall i name args := by
  subst hs
  have hlexicon : (empty s.lexicon s.level).lexicon = s.lexicon := rfl
  unfold tryCall
  rw [hlexicon]
  cases hresolve : s.lexicon.resolve name with
  | none => rfl
  | some found =>
      dsimp only
      rw [hi _ _ name s args rfl hresolve, Attempt.ofAct_map]

namespace Script

theorem call_extends {s : Sentence} (hs : s.lexicon = l) {c : Call} (hc : c.appends = true) :
    call ctx i env s c = s.splice <$> call ctx i env (Sentence.empty l s.level) c := by
  subst hs
  cases c with
  | word name args =>
      simp only [call, map_bind]
      refine bind_congr fun args => ?_
      rw [Sentence.tryCall_extends hi rfl, Attempt.mapError_map]
  | method name args =>
      simp only [call, map_bind]
      refine bind_congr fun args => ?_
      unfold callMethod
      cases Html.method? name with
      | none => rfl
      | some method =>
          simp only [← Attempt.ofAct_map, map_bind]
          refine congrArg Attempt.ofAct (bind_congr fun args => ?_)
          rw [Sentence.tryCall_extends hi rfl, Attempt.orBreakOff_map]
  | append space name args =>
      simp only [call, map_bind, map_pure]
      rfl
  | branch condition yes no =>
      simp only [call, map_bind, map_pure]
      refine bind_congr fun condition => bind_congr fun yes => bind_congr fun no => congrArg pure ?_
      cases condition.isTruthy with
      | true => rfl
      | false =>
          cases no with
          | none => exact s.splice_empty.symm
          | some no => rfl
  | repeated items body =>
      simp only [call, map_bind, ← Attempt.ofAct_map]
      refine bind_congr fun items => congrArg Attempt.ofAct ?_
      exact spliceItems_extends _ _ s 0
  | splice sentence =>
      simp only [call, map_bind]
      refine bind_congr fun a => ?_
      cases a <;> rfl
  | reference | continueWith => cases hc

/-- A script that appends extends a sentence by what it comes to on an empty one. -/
theorem build_extends {calls : List Call} (hcalls : ∀ c ∈ calls, c.appends = true) {s : Sentence} (hs : s.lexicon = l) :
    build ctx i env s calls = s.splice <$> build ctx i env (Sentence.empty l s.level) calls := by
  induction calls generalizing s with
  | nil =>
      simp only [build, map_pure]
      rw [← hs, s.splice_empty]
  | cons c calls ih =>
      have hc := hcalls c List.mem_cons_self
      have hlater : ∀ t : Sentence, t.lexicon = l → build ctx i env t calls = _ :=
        fun t ht => ih (fun c' hc' => hcalls c' (List.mem_cons_of_mem _ hc')) ht
      have hempty : call ctx i env (Sentence.empty l s.level) c = _ := call_extends hi rfl hc
      rw [build, build, call_extends hi hs hc, hempty]
      simp only [bind_map_left, map_bind]
      refine bind_congr fun t => ?_
      -- what the call has come to is a sentence of the same lexicon, whatever it is put behind
      rw [hlater (s.splice ((Sentence.empty l s.level).splice t)) hs, hlater ((Sentence.empty l s.level).splice t) rfl,
        Functor.map_map]
      exact congrArg (· <$> _) (funext fun u => s.splice_splice _ u)

theorem runBody_extends {body : Body} (hbody : ∀ c ∈ body.calls, c.appends = true) {h : Initializer} {s : Sentence}
    (hs : s.lexicon = l) (args : List Arg) :
    runBody ctx i body h s args = s.splice <$> runBody ctx i body h (Sentence.empty l s.level) args := by
  unfold runBody
  simp only [closed, build_extends hi hbody hs, Attempt.orBreakOff_map]
  cases body.label with
  | none => rfl
  | some label =>
      subst hs
      simp only [map_bind]
      rfl

end Script

end Extending

namespace Script

variable {ctx : Context}

/-- A word whose body appends extends a sentence, wherever the word comes from, if those do that the body calls there. -/
theorem apply_extends {depth : Nat} {word : Word} {owner : Lexicon} {s : Sentence} (name : String) (args : List Arg)
    (hword : ∀ body ∈ word.body?, ∀ c ∈ body.calls, c.appends = true)
    (hlower : ∀ lower < depth, (interpreterWithin ctx lower).Lengthens s.lexicon) :
    word.apply (interpreterWithin ctx depth) owner s name args =
      s.splice <$> word.apply (interpreterWithin ctx depth) owner (Sentence.empty s.lexicon s.level) name args := by
  have hrun : ∀ body ∈ word.body?, ∀ h, (interpreterWithin ctx depth).run body h s args =
      s.splice <$> (interpreterWithin ctx depth).run body h (Sentence.empty s.lexicon s.level) args := by
    intro body hbody h
    cases depth with
    | zero => rfl
    | succ depth => exact runBody_extends (hlower depth (Nat.lt_succ_self depth)) (hword body hbody) rfl args
  rcases s with ⟨l, _ | _, lexems⟩ <;> cases word <;> first | rfl | exact hrun _ rfl _

theorem interpreterWithin_extends {l : Lexicon} (hl : l.Appending) (depth : Nat) :
    (interpreterWithin ctx depth).Lengthens l := by
  induction depth using Nat.strongRecOn with
  | _ depth ih =>
      rintro owner word name s args rfl hresolve
      obtain ⟨howner, hword⟩ := Lexicon.resolve_eq_some hresolve
      exact apply_extends name args (hl owner howner _ (Entries.mem_of_get? hword)) ih

end Script

section Calls

variable {ctx : Context} {s : Sentence}

/-- A word that is found in some lexicon extends sentences of another one. -/
theorem Word.apply_appends (hs : s.lexicon.Appending) {l owner : Lexicon} (hl : l.Appending) {word : Word} {name : String}
    (hresolve : l.resolve name = some (owner, word)) (args : List Arg) :
    word.apply (Script.interpreter ctx) owner s name args =
      s.splice <$> word.apply (Script.interpreter ctx) owner (Sentence.empty s.lexicon s.level) name args := by
  obtain ⟨howner, hword⟩ := Lexicon.resolve_eq_some hresolve
  exact Script.apply_extends name args (hl owner howner _ (Entries.mem_of_get? hword))
    fun lower _ => Script.interpreterWithin_extends hs lower

/-- Words only append, independently of what is there: words of the sentence's own lexicon, and those of any registered
lexicon that are called by reference. -/
theorem calls_append (hs : s.lexicon.Appending) :
    (∀ name args, s.Appends fun t => t.tryCall (Script.interpreter ctx) name args) ∧
    ∀ registry : Registry, registry.Appending → ∀ reference args,
      s.Appends fun t => t.useReference (Script.interpreter ctx) registry reference args := by
  refine ⟨fun name args => .of_map ?_, fun registry hregistry reference args => .of_map ?_⟩
  · exact Sentence.tryCall_extends (Script.interpreterWithin_extends hs _) rfl name args
  · unfold Sentence.useReference
    cases Sentence.splitReference reference with
    | none => rfl
    | some parts =>
        dsimp only
        cases hget : registry.get? parts.1 with
        | none => rfl
        | some l =>
            dsimp only
            cases hresolve : l.resolve parts.2 with
            | none => rfl
            | some found =>
                dsimp only
                rw [Word.apply_appends hs (hregistry _ _ hget) hresolve, Attempt.ofAct_map]

/-- A vocabulary with a compound that says something, and then something of its own. -/
def guild : Lexicon :=
  ⟨"ui", none, [("cheer", .compound ⟨none, [.word "say" [.arg 0], .splice (.sentence [.word "say" [.str "!"]] none none)]⟩),
    ("say", .atom)]⟩

/-- A dialect that says everything twice, and greets with what the vocabulary says itself. -/
def taproom : Lexicon :=
  ⟨"club", some guild, [("greet", .alias ⟨none, [.append "ui" "say" [.arg 0], .word "cheer" [.str "cheers"]]⟩),
    ("say", .compound ⟨none, [.append "ui" "say" [.arg 0], .append "ui" "say" [.arg 0]]⟩)]⟩

theorem taproom_appending : taproom.Appending := by
  intro owner howner
  rcases List.mem_cons.mp howner with rfl | howner
  · simp [Word.body?, Call.appends]
  · cases List.mem_singleton.mp howner
    simp [Word.body?, Call.appends]

/-- Behind a bell that has been rung, a greeting is the greeting, and a word of the parent that is called by reference
speaks the dialect of the sentence. A word that is missing is missing as well. -/
theorem calls_append_taproom :
    let ctx : Context := ⟨Registry.empty, [], []⟩
    let registry : Registry := ⟨[("club", taproom), ("ui", guild)]⟩
    let rung : Sentence := ⟨taproom, .atomic, [⟨"bell", "ring", []⟩]⟩
    let said := fun text : String => (⟨"ui", "say", [.str text]⟩ : Lexem)
    (∃ w, rung.tryCall (Script.interpreter ctx) "greet" [.str "hi"] World.new =
        .ok ⟨taproom, .atomic, ⟨"bell", "ring", []⟩ :: ["hi", "cheers", "cheers", "!"].map said⟩ w) ∧
      (∃ w, rung.useReference (Script.interpreter ctx) registry "ui:cheer" [.str "ho"] World.new =
        .ok ⟨taproom, .atomic, ⟨"bell", "ring", []⟩ :: ["ho", "ho", "!"].map said⟩ w) ∧
      rung.useReference (Script.interpreter ctx) registry "ui:greet" [] World.new =
        .error (.error (.unknownWord "ui" "greet")) World.new := by
  intro ctx registry rung said
  have hregistry : registry.Appending := by
    intro name l hl
    have hmem : (name, l) ∈ registry.lexicons := Entries.mem_of_get? hl
    simp only [registry, List.mem_cons, Prod.mk.injEq, List.not_mem_nil, or_false] at hmem
    rcases hmem with ⟨-, rfl⟩ | ⟨-, rfl⟩
    · exact taproom_appending
    · exact fun owner howner => taproom_appending owner (List.mem_cons_of_mem _ howner)
  have happends := @calls_append ctx rung taproom_appending
  exact ⟨⟨_, happends.1 "greet" [.str "hi"] World.new⟩, ⟨_, happends.2 registry hregistry "ui:cheer" [.str "ho"] World.new⟩,
    happends.2 registry hregistry "ui:greet" [] World.new⟩

end Calls

end Parlance
