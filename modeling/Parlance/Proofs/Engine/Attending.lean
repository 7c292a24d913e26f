import Parlance.Proofs.Engine.Posts

/-! What hooks are told in the course of a pass. Every hook of an output gets at most one turn: it is told of its node
for the first time, it is told what has changed, another one takes over from it, or it is told that it is removed. The
turns come in the order of the posts, so turns side by side make up those of a whole pass. -/

namespace Parlance

/-- What is told to a hook. -/
inductive HookCall where
  | render (hook : Identity) (node : NodeId) (args : List Arg)
  | diff (hook : Identity) (node : NodeId) (args old : List Arg)
  | remove (hook : Identity) (node : NodeId) (args : List Arg)

/-- The hook of a post: the node that it is told of, and the word that it stands for. -/
def Post.hook? (post : Post) : Option (NodeId × Lexem) :=
  match post.mark with
  | .hook n => some (n, post.lexem)
  | _ => none

/-- The hooks among posts, in order. -/
def hooksOf (posts : List Post) : List (NodeId × Lexem) := posts.filterMap Post.hook?

/-- What is told for one slot in one pass, from the word before to the word after. -/
inductive HookTurn : Option (NodeId × Lexem) → List HookCall → Option (NodeId × Lexem) → Prop
  | kept (hook : NodeId × Lexem) : HookTurn (some hook) [] (some hook)
  | rendered {n : NodeId} {lexem : Lexem} {hook : Identity} (hhook : lexem.hookArg = .ok hook) :
      HookTurn none [.render hook n lexem.hookArgs] (some (n, lexem))
  | diffed {n : NodeId} {lexem old : Lexem} {hook : Identity} (hhook : lexem.hookArg = .ok hook)
      (hold : old.hookArg = .ok hook) :
      HookTurn (some (n, old)) [.diff hook n lexem.hookArgs old.hookArgs] (some (n, lexem))
  | replaced {n : NodeId} {lexem old : Lexem} {hook former : Identity} (hhook : lexem.hookArg = .ok hook)
      (hold : old.hookArg = .ok former) (hne : hook ≠ former) :
      HookTurn (some (n, old)) [.remove former n old.hookArgs, .render hook n lexem.hookArgs] (some (n, lexem))
  | removed {n : NodeId} {lexem : Lexem} {hook : Identity} (hhook : lexem.hookArg = .ok hook) :
      HookTurn (some (n, lexem)) [.remove hook n lexem.hookArgs] none

/-- What is told in one pass, slot by slot. -/
inductive HookTurns : List (NodeId × Lexem) → List HookCall → List (NodeId × Lexem) → Prop
  | nil : HookTurns [] [] []
  | cons {before after : Option (NodeId × Lexem)} {hooks hooks' : List (NodeId × Lexem)} {own calls : List HookCall}
      (head : HookTurn before own after) (tail : HookTurns hooks calls hooks') :
      HookTurns (before.toList ++ hooks) (own ++ calls) (after.toList ++ hooks')

section Hooks

variable {posts posts' : List Post}

@[simp] theorem hooksOf_nil : hooksOf [] = [] := rfl

@[simp] theorem hooksOf_append : hooksOf (posts ++ posts') = hooksOf posts ++ hooksOf posts' := List.filterMap_append

/-- Only a hook is one. -/
theorem hooksOf_other {post : Post} (hmark : ∀ n, post.mark ≠ .hook n) : hooksOf [post] = [] := by
  obtain ⟨q, lexem, mark⟩ := post
  cases mark with
  | hook n => exact absurd rfl (hmark n)
  | _ => rfl

end Hooks

namespace HookTurns

variable {hooks hooks' more more' : List (NodeId × Lexem)} {calls calls' : List HookCall}
variable {before after : Option (NodeId × Lexem)}

theorem refl (hooks : List (NodeId × Lexem)) : HookTurns hooks [] hooks := by
  induction hooks with
  | nil => exact .nil
  | cons hook _ ih => exact .cons (.kept hook) ih

theorem one (h : HookTurn before calls after) : HookTurns before.toList calls after.toList := by
  have hone := cons h nil
  simpa only [List.append_nil] using hone

theorem append (h : HookTurns hooks calls hooks') (h' : HookTurns more calls' more') :
    HookTurns (hooks ++ more) (calls ++ calls') (hooks' ++ more') := by
  induction h with
  | nil => exact h'
  | cons head _ ih =>
      simp only [List.append_assoc]
      exact .cons head ih

end HookTurns

variable {ω : Type}

/-- A record of what hooks are told, as it can be told from a world. -/
structure Ear (b : Behaviour ω) where
  heard : ω → List HookCall
  acts : ∀ {w w'}, b.Acts w w' → heard w' = heard w
  render : ∀ {hook n args h w h' w'}, b.hookRender hook n args h w = .ok h' w' →
    heard w' = heard w ++ [.render hook n args]
  diff : ∀ {hook n args old h w h' w'}, b.hookDiff hook n args old h w = .ok h' w' →
    heard w' = heard w ++ [.diff hook n args old]
  remove : ∀ {hook n args h w h' w'}, b.hookRemove hook n args h w = .ok h' w' →
    heard w' = heard w ++ [.remove hook n args]

/-- No hook is told anything. -/
def Hushed (b : Behaviour ω) (w w' : ω) : Prop := ∀ ear : Ear b, ear.heard w' = ear.heard w

variable {ρ : Regime} {b : Behaviour ω} {w w₁ w' : ω}

namespace Hushed

theorem refl : Hushed b w w := fun _ => rfl

theorem trans (h : Hushed b w w₁) (h' : Hushed b w₁ w') : Hushed b w w' := fun ear => (h' ear).trans (h ear)

theorem acted (hact : b.Acts w w') : Hushed b w w' := fun ear => ear.acts hact

theorem evaluation (h : Evaluation b w w') : Hushed b w w' := by
  induction h with
  | refl => exact .refl
  | run hrun => exact .acted (.run hrun)
  | render hrender _ ih => exact (acted (.render hrender)).trans ih

theorem told {l : Lifecycle} {ids : List InstanceId} (h : Told b l ids w w') : Hushed b w w' := by
  induction h with
  | nil => exact .refl
  | cons head _ ih => exact (acted (.lifecycle head)).trans ih

end Hushed

/-- The words of hooks are accounted for. -/
def Regime.HeedsHooks (ρ : Regime) : Prop := ∀ n, ρ.judge (.hook n) ≠ none

variable (ρ b) in
/-- From posts on to others every hook gets at most one turn, and nothing else is told to hooks. -/
def Attends (w : ω) (posts : List Post) (w' : ω) (posts' : List Post) : Prop :=
  ρ.HeedsHooks → ∀ ear : Ear b, ∃ calls, HookTurns (hooksOf posts) calls (hooksOf posts') ∧
    ear.heard w' = ear.heard w ++ calls

namespace Attends

variable {posts posts' more more' : List Post}

/-- Nothing is told, and the hooks stay. -/
theorem quiet (hhushed : Hushed b w w') (hsame : ρ.HeedsHooks → hooksOf posts' = hooksOf posts) :
    Attends ρ b w posts w' posts' := fun hheeds ear =>
  ⟨[], hsame hheeds ▸ .refl _, by rw [hhushed ear, List.append_nil]⟩

theorem refl : Attends ρ b w posts w posts := quiet .refl fun _ => rfl

/-- One hook gets its turn. -/
theorem turn {before after : Option (NodeId × Lexem)} {calls : List HookCall}
    (hturn : HookTurn before calls after) (hbefore : hooksOf posts = before.toList) (hafter : hooksOf posts' = after.toList)
    (hheard : ∀ ear : Ear b, ear.heard w' = ear.heard w ++ calls) : Attends ρ b w posts w' posts' := fun _ ear =>
  ⟨calls, by rw [hbefore, hafter]; exact .one hturn, hheard ear⟩

/-- What is told for some posts comes before what is told for others. -/
theorem append (h : Attends ρ b w posts w₁ posts') (h' : Attends ρ b w₁ more w' more') :
    Attends ρ b w (posts ++ more) w' (posts' ++ more') := by
  intro hheeds ear
  obtain ⟨calls, hturns, hheard⟩ := h hheeds ear
  obtain ⟨calls', hturns', hheard'⟩ := h' hheeds ear
  refine ⟨calls ++ calls', ?_, by rw [hheard', hheard, List.append_assoc]⟩
  rw [hooksOf_append, hooksOf_append]
  exact hturns.append hturns'

theorem after (hhushed : Hushed b w w₁) (h : Attends ρ b w₁ posts w' posts') : Attends ρ b w posts w' posts' := by
  intro hheeds ear
  obtain ⟨calls, hturns, hheard⟩ := h hheeds ear
  exact ⟨calls, hturns, by rw [hheard, hhushed ear]⟩

theorem before (h : Attends ρ b w posts w₁ posts') (hhushed : Hushed b w₁ w') : Attends ρ b w posts w' posts' := by
  intro hheeds ear
  obtain ⟨calls, hturns, hheard⟩ := h hheeds ear
  exact ⟨calls, hturns, by rw [hhushed ear, hheard]⟩

/-- Hooks are gone before others come. -/
theorem instead (h : Attends ρ b w posts w₁ []) (h' : Attends ρ b w₁ [] w' posts') : Attends ρ b w posts w' posts' := by
  have hboth := h.append h'
  rwa [List.append_nil] at hboth

/-- Posts that are no hooks may come and go unheard. -/
theorem other {post post' : Post} (hhushed : Hushed b w w') (hmark : ∀ n, post.mark ≠ .hook n)
    (hmark' : ∀ n, post'.mark ≠ .hook n) : Attends ρ b w [post] w' [post'] :=
  quiet hhushed fun _ => by rw [hooksOf_other hmark, hooksOf_other hmark']

end Attends

/-- A word that may be put for another one in a post stands for no hook, or for one of no account. -/
theorem hooksOf_renamed {p : NodeId} {lexem old : Lexem} {mark : Mark} (hheeds : ρ.HeedsHooks)
    (hloose : mark.loose = true ∨ ρ.judge mark = none ∨ lexem = old) :
    hooksOf [⟨p, lexem, mark⟩] = hooksOf [⟨p, old, mark⟩] := by
  cases mark with
  | hook n =>
      rcases hloose with ⟨⟨⟩⟩ | hnone | rfl
      · exact absurd hnone (hheeds n)
      · rfl
  | _ => rfl

end Parlance
