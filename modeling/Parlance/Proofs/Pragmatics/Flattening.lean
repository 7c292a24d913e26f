import Parlance.Pragmatics.Basic

/-! Carrying out a sentence is one fold. Every `if` and every `each` for which there is no handler is replaced by what
it chooses or lists, words that are not carried out are dropped, and the handlers of the words that are left run from
left to right on one subject and one scope. Render functions may keep a state of their own, from which what they give
follows. -/

namespace Parlance

variable {ω σ ν : Type}

/-- A part of a flattened sentence. -/
inductive Piece where
  /-- A word with a handler. -/
  | word (lexem : Lexem)
  /-- A render function is called, and what it gives comes next. -/
  | call (render : Identity) (item : Arg) (index : Nat)
  /-- An argument that is no sentence and no render function. -/
  | fault (error : PragmaticsError)

namespace Pragmatics

section Flat

variable (answer : Identity → Arg → Nat → ν → Option (Sentence × ν)) (flat : Sentence → ν → Option (List Piece × ν))

/-- What a render function gives, flattened. -/
def flatCall (f : Identity) (item : Arg) (index : Nat) (v : ν) : Option (List Piece × ν) := do
  let (s, v) ← answer f item index v
  let (pieces, v) ← flat s v
  some (.call f item index :: pieces, v)

/-- The flattened items of a list, in order. -/
def flatItems (f : Identity) (index : Nat) : List Arg → ν → Option (List Piece × ν)
  | [], v => some ([], v)
  | item :: items, v => do
      let (pieces, v) ← flatCall answer flat f item index v
      let (rest, v) ← flatItems f (index + 1) items v
      some (pieces ++ rest, v)

/-- What a condition chooses, flattened. -/
def flatBranch (args : List Arg) (v : ν) : Option (List Piece × ν) :=
  let place := if (argAt args 0).isTruthy then 1 else 2
  match argAt args place with
  | .null => some ([], v)
  | .sentence _ s => flat s v
  | .render f => flatCall answer flat f (argAt args 0) 0 v
  | _ => some ([.fault (.invalidArgument "if" place "a sentence or a render function")], v)

def flatEach (args : List Arg) (v : ν) : Option (List Piece × ν) :=
  match argAt args 1 with
  | .render f => flatItems answer flat f 0 (argAt args 0).items v
  | _ => some ([.fault (.invalidArgument "each" 1 "a render function")], v)

/-- What stands in the place of a word. -/
def flatLexem (p : Pragmatics ω σ) (lexem : Lexem) (v : ν) : Option (List Piece × ν) :=
  if p.accepts lexem.space then
    if (p.handlers.get? lexem.name).isSome then some ([.word lexem], v)
    else if lexem.name = "if" then flatBranch answer flat lexem.args v
    else if lexem.name = "each" then flatEach answer flat lexem.args v
    else some ([], v)
  else some ([], v)

def flatLexems (p : Pragmatics ω σ) : List Lexem → ν → Option (List Piece × ν)
  | [], v => some ([], v)
  | lexem :: lexems, v => do
      let (pieces, v) ← p.flatLexem answer flat lexem v
      let (rest, v) ← p.flatLexems lexems v
      some (pieces ++ rest, v)

end Flat

/-- A sentence that is nested no deeper than so many levels, flattened. -/
def flatten (p : Pragmatics ω σ) (answer : Identity → Arg → Nat → ν → Option (Sentence × ν)) :
    Nat → Sentence → ν → Option (List Piece × ν)
  | 0, _, _ => none
  | depth + 1, s, v => p.flatLexems answer (p.flatten answer depth) s.lexems v

/-- What is done at a piece of a flattened sentence. -/
def enact (p : Pragmatics ω σ) (render : Identity → Arg → Nat → Act ω Sentence) : Piece → Deed ω σ Unit
  | .word lexem =>
      match p.handlers.get? lexem.name with
      | some handler => handler lexem.args
      | none => pure ()
  | .call f item index => discard (Deed.act (render f item index))
  | .fault error => Deed.fail error

/-- Render functions give what the answers say, as far as these go: they follow from a part of the world. -/
def Answers (render : Identity → Arg → Nat → Act ω Sentence) (view : ω → ν)
    (answer : Identity → Arg → Nat → ν → Option (Sentence × ν)) : Prop :=
  ∀ f item index w s v, answer f item index (view w) = some (s, v) → ∃ w', render f item index w = .ok s w' ∧ view w' = v

/-- Handlers leave a part of the world alone. -/
def Keeps (p : Pragmatics ω σ) (view : ω → ν) : Prop :=
  ∀ word handler, p.handlers.get? word = some handler → ∀ args scene x scene', handler args scene = .ok x scene' →
    view scene'.world = view scene.world

variable {p : Pragmatics ω σ} {render : Identity → Arg → Nat → Act ω Sentence} {view : ω → ν}
variable {answer : Identity → Arg → Nat → ν → Option (Sentence × ν)} {output : Sentence → Deed ω σ Unit}
variable {flat : Sentence → ν → Option (List Piece × ν)}

theorem act_ok {α : Type} {action : Act ω α} {scene : Scene ω σ} {x : α} {w : ω} (h : action scene.world = .ok x w) :
    Deed.act action scene = .ok x { scene with world := w } := by
  unfold Deed.act
  rw [h]

/-- Calling a render function leaves the subject and the scope alone. -/
theorem enact_call {f : Identity} {item : Arg} {index : Nat} {scene : Scene ω σ} {s : Sentence} {w : ω}
    (h : render f item index scene.world = .ok s w) :
    p.enact render (.call f item index) scene = .ok () { scene with world := w } := by
  change EStateM.map _ (Deed.act (render f item index)) scene = _
  unfold EStateM.map
  rw [act_ok h]

/-- An action does what the pieces say, one after the other. -/
def Unrolls (p : Pragmatics ω σ) (render : Identity → Arg → Nat → Act ω Sentence) (view : ω → ν)
    (deed : Deed ω σ Unit) (v : ν) (pieces : List Piece) (v' : ν) : Prop :=
  ∀ scene, view scene.world = v → deed scene = pieces.forM (p.enact render) scene ∧
    ∀ scene', deed scene = .ok () scene' → view scene'.world = v'

namespace Unrolls

variable {deed next : Deed ω σ Unit} {v v' v₁ : ν} {pieces rest : List Piece}

theorem nil : p.Unrolls render view (pure ()) v [] v := fun scene hview => ⟨rfl, fun scene' h => by cases h; exact hview⟩

theorem bind (h : p.Unrolls render view deed v pieces v₁) (hnext : p.Unrolls render view next v₁ rest v') :
    p.Unrolls render view (deed >>= fun _ => next) v (pieces ++ rest) v' := by
  intro scene hview
  obtain ⟨hdeed, hkept⟩ := h scene hview
  have happend : (pieces ++ rest).forM (p.enact render) =
      (pieces.forM (p.enact render) >>= fun _ => rest.forM (p.enact render)) := List.forM_append
  rw [happend]
  change EStateM.bind deed (fun _ => next) scene = EStateM.bind _ _ scene ∧
    ∀ scene', EStateM.bind deed (fun _ => next) scene = .ok () scene' → view scene'.world = v'
  unfold EStateM.bind
  rw [← hdeed]
  cases hrun : deed scene with
  | error err scene₁ => exact ⟨rfl, nofun⟩
  | ok x scene₁ => exact hnext scene₁ (hkept scene₁ hrun)

theorem fault {error : PragmaticsError} : p.Unrolls render view (Deed.fail error) v [.fault error] v :=
  fun _ _ => ⟨rfl, nofun⟩

theorem word (hkeeps : p.Keeps view) {lexem : Lexem} {handler : List Arg → Deed ω σ Unit}
    (hhandler : p.handlers.get? lexem.name = some handler) :
    p.Unrolls render view (handler lexem.args) v [.word lexem] v := by
  intro scene hview
  have hword : [Piece.word lexem].forM (p.enact render) = (handler lexem.args >>= fun _ => pure ()) := by
    change (p.enact render (.word lexem) >>= fun _ => pure ()) = _
    rw [enact, hhandler]
  refine ⟨?_, fun scene' h => (hkeeps _ _ hhandler _ _ _ _ h).trans hview⟩
  rw [hword]
  change _ = EStateM.bind _ _ scene
  unfold EStateM.bind
  cases handler lexem.args scene <;> rfl

variable (hanswers : Answers render view answer)
  (hflat : ∀ s v pieces v', flat s v = some (pieces, v') → p.Unrolls render view (output s) v pieces v')
include hanswers hflat

theorem call {f : Identity} {item : Arg} {index : Nat} (h : flatCall answer flat f item index v = some (pieces, v')) :
    p.Unrolls render view (do output (← Deed.act (render f item index))) v pieces v' := by
  simp only [flatCall, Option.bind_eq_bind, Option.bind_eq_some_iff, Prod.exists, Option.some.injEq, Prod.mk.injEq] at h
  obtain ⟨s, v₁, hanswer, own, _, hown, rfl, rfl⟩ := h
  intro scene hview
  obtain ⟨w, hrender, hworld⟩ := hanswers f item index scene.world s v₁ (hview ▸ hanswer)
  have hact : Deed.act _ scene = _ := act_ok hrender
  change EStateM.bind (Deed.act (render f item index)) output scene =
      EStateM.bind (p.enact render (.call f item index)) (fun _ => own.forM (p.enact render)) scene ∧
    ∀ scene', EStateM.bind (Deed.act (render f item index)) output scene = .ok () scene' → view scene'.world = _
  unfold EStateM.bind
  rw [hact, enact_call hrender]
  exact hflat _ _ _ _ hown _ hworld

theorem items {f : Identity} {items : List Arg} {index : Nat}
    (h : flatItems answer flat f index items v = some (pieces, v')) :
    p.Unrolls render view (repeated render output f index items) v pieces v' := by
  induction items generalizing index v pieces v' with
  | nil =>
      cases h
      exact .nil
  | cons item items ih =>
      simp only [flatItems, Option.bind_eq_bind, Option.bind_eq_some_iff, Prod.exists, Option.some.injEq,
        Prod.mk.injEq] at h
      obtain ⟨own, v₁, hown, rest, _, hrest, rfl, rfl⟩ := h
      have hboth := (call hanswers hflat hown).bind (ih hrest)
      rwa [bind_assoc] at hboth

theorem branch {args : List Arg} (h : flatBranch answer flat args v = some (pieces, v')) :
    p.Unrolls render view (Pragmatics.branch render output args) v pieces v' := by
  unfold flatBranch at h
  unfold Pragmatics.branch
  dsimp only at h ⊢
  generalize hfault : Deed.fail (.invalidArgument "if" _ _) = fault
  have hfaulty : p.Unrolls render view (Deed.fail (.invalidArgument "if"
      (if (argAt args 0).isTruthy = true then 1 else 2) "a sentence or a render function")) v [.fault _] v := .fault
  rw [hfault] at hfaulty
  cases harg : argAt args (if (argAt args 0).isTruthy = true then 1 else 2) with
  | null =>
      rw [harg] at h
      cases h
      exact .nil
  | sentence =>
      rw [harg] at h
      exact hflat _ _ _ _ h
  | render f =>
      rw [harg] at h
      exact call hanswers hflat h
  | _ =>
      rw [harg] at h
      cases h
      exact hfaulty

theorem each {args : List Arg} (h : flatEach answer flat args v = some (pieces, v')) :
    p.Unrolls render view (Pragmatics.each render output args) v pieces v' := by
  unfold flatEach at h
  unfold Pragmatics.each
  cases harg : argAt args 1 with
  | render f =>
      rw [harg] at h
      exact items hanswers hflat h
  | _ =>
      rw [harg] at h
      cases h
      exact .fault

variable (hkeeps : p.Keeps view)
include hkeeps

theorem lexem {lexem : Lexem} (h : p.flatLexem answer flat lexem v = some (pieces, v')) :
    p.Unrolls render view (p.perform render output lexem) v pieces v' := by
  unfold flatLexem at h
  unfold perform
  split at h
  next hspace =>
    rw [if_pos hspace]
    cases hhandler : p.handlers.get? lexem.name with
    | some handler =>
        rw [hhandler] at h
        cases h
        exact .word hkeeps hhandler
    | none =>
        rw [hhandler, if_neg (by simp)] at h
        dsimp only
        split at h
        next hif =>
          rw [if_pos hif]
          exact branch hanswers hflat h
        next hif =>
          rw [if_neg hif]
          split at h
          next heach =>
            rw [if_pos heach]
            exact each hanswers hflat h
          next heach =>
            cases h
            rw [if_neg heach]
            exact .nil
  next hspace =>
    cases h
    rw [if_neg hspace]
    exact .nil

theorem lexems {lexems : List Lexem} (h : p.flatLexems answer flat lexems v = some (pieces, v')) :
    p.Unrolls render view (lexems.forM (p.perform render output)) v pieces v' := by
  induction lexems generalizing v pieces v' with
  | nil =>
      cases h
      exact .nil
  | cons l lexems ih =>
      simp only [flatLexems, Option.bind_eq_bind, Option.bind_eq_some_iff, Prod.exists, Option.some.injEq,
        Prod.mk.injEq] at h
      obtain ⟨own, v₁, hown, rest, _, hrest, rfl, rfl⟩ := h
      exact (lexem hanswers hflat hkeeps hown).bind (ih hrest)

end Unrolls

theorem outputWithin_unrolls (hanswers : Answers render view answer) (hkeeps : p.Keeps view) {depth limit : Nat}
    (hdepth : depth ≤ limit) {s : Sentence} {v v' : ν} {pieces : List Piece}
    (h : p.flatten answer depth s v = some (pieces, v')) :
    p.Unrolls render view (p.outputWithin render limit s) v pieces v' := by
  induction depth generalizing limit s v pieces v' with
  | zero => cases h
  | succ depth ih =>
      obtain ⟨limit, rfl⟩ : ∃ l, limit = l + 1 := ⟨limit - 1, by omega⟩
      have hinner : ∀ s v pieces v', p.flatten answer depth s v = some (pieces, v') →
          p.Unrolls render view (p.outputWithin render limit s) v pieces v' := fun _ _ _ _ => ih (by omega)
      exact .lexems hanswers hinner hkeeps h

/-- A sentence is carried out by going once, from left to right, through what it is when it is flattened, and no further
than to the first error: subject, scope and world are as after these pieces, and so is the result. It may be as deep as
one likes, and at most as deep as one allows. -/
theorem sentence_folded (hanswers : Answers render view answer) (hkeeps : p.Keeps view) {depth limit : Nat}
    (hdepth : depth ≤ limit) {s : Sentence} {v' : ν} {pieces : List Piece} (scene : Scene ω σ)
    (h : p.flatten answer depth s (view scene.world) = some (pieces, v')) :
    p.outputWithin render limit s scene = pieces.forM (p.enact render) scene :=
  (outputWithin_unrolls hanswers hkeeps hdepth h scene rfl).1

/-- Words are told to a list of texts. -/
def telling : Pragmatics Nat (List String) :=
  (Pragmatics.new.addNamespace "ui").handle "say" fun args => Deed.edit (· ++ [(argAt args 0).toText])

/-- A list of two between two texts, and a branch that is none. -/
def tale : Sentence :=
  let name (name : String) (args : List Arg) : Lexem := ⟨"ui", name, args⟩
  ⟨Lexicon.new "ui" none, .firstLevel, [name "say" [.str "a"], name "each" [.list ⟨0⟩ [.str "x", .str "y"], .render ⟨1⟩],
    name "if" [.bool true, .str "b"], name "say" [.str "c"]]⟩

/-- What is told of an item, in its own words and in foreign ones. -/
def told (item : Arg) : Sentence :=
  ⟨Lexicon.new "ui" none, .firstLevel, [⟨"ui", "say", [item]⟩, ⟨"html", "say", [item]⟩]⟩

/-- Tells an item, and counts how often it has been called. -/
def tell (_ : Identity) (item : Arg) (_ : Nat) : Act Nat Sentence := fun count => .ok (told item) (count + 1)

/-- The texts are told up to the branch. -/
theorem sentence_folded_tale : ∃ pieces,
    telling.flatten (fun _ item _ count => some (told item, count + 1)) 2 tale 0 = some (pieces, 2) ∧
    telling.run tell tale ⟨[], Scope.new, 0⟩ = pieces.forM (telling.enact tell) ⟨[], Scope.new, 0⟩ ∧
    telling.run tell tale ⟨[], Scope.new, 0⟩ =
      .error (.error (.invalidArgument "if" 1 "a sentence or a render function")) ⟨["a", "x", "y"], Scope.new, 2⟩ := by
  have hflat : telling.flatten (fun _ item _ count => some (told item, count + 1)) 2 tale 0 =
      some ([.word ⟨"ui", "say", [.str "a"]⟩, .call ⟨1⟩ (.str "x") 0, .word ⟨"ui", "say", [.str "x"]⟩,
        .call ⟨1⟩ (.str "y") 1, .word ⟨"ui", "say", [.str "y"]⟩,
        .fault (.invalidArgument "if" 1 "a sentence or a render function"), .word ⟨"ui", "say", [.str "c"]⟩], 2) := rfl
  have hfolded : telling.outputWithin tell depthLimit tale ⟨[], Scope.new, 0⟩ = _ :=
    sentence_folded (?_ : Answers tell id _) ?_ (by decide) ⟨[], Scope.new, 0⟩ hflat
  · exact ⟨_, hflat, hfolded, hfolded.trans rfl⟩
  · intro f item index w s v h
    cases h
    exact ⟨_, rfl, rfl⟩
  · intro word handler hhandler args scene x scene' h
    change Entries.get? word [("say", _)] = some handler at hhandler
    unfold Entries.get? at hhandler
    split at hhandler
    · cases hhandler
      cases h
      rfl
    · cases hhandler

end Pragmatics

end Parlance
