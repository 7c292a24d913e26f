import Mathlib.Logic.Relation
import Parlance.Proofs.Engine.Inscribing
import Parlance.Proofs.Engine.Posts

/-! What one step of a pass does to a stage and to the posts of an output. Whatever a pass does is a row of such moves,
so a property of all runs is shown by what each kind of move keeps. A node is put before an anchor that stands next
among the posts, but only under nodes that are no elements of the output is this of any account. -/

namespace Parlance

variable {ω : Type} (ρ : Regime) (b : Behaviour ω)

/-- One step of a pass. -/
inductive Move : Stage ω → List Post → Stage ω → List Post → Prop
  | acted {σ : Stage ω} {posts : List Post} {w : ω} (hact : b.Acts σ.world w) : Move σ posts (σ.inWorld w) posts
  | tabled {σ : Stage ω} {posts : List Post} (t : Array Instance) (hendure : Endure σ.instances t) :
      Move σ posts ⟨σ.host, t, σ.world⟩ posts
  | renamed {σ : Stage ω} {left right : List Post} {q : NodeId} {lexem old : Lexem} {mark : Mark}
      (hloose : mark.loose = true ∨ ρ.judge mark = none) (hallows : ρ.allows q lexem) :
      Move σ (left ++ ⟨q, old, mark⟩ :: right) σ (left ++ ⟨q, lexem, mark⟩ :: right)
  | opened {σ : Stage ω} {left right : List Post} {q : NodeId} {lexem : Lexem} (hallows : ρ.allows q lexem) :
      Move σ (left ++ right) σ (left ++ ⟨q, lexem, .nodes []⟩ :: right)
  | closed {σ : Stage ω} {left right : List Post} {q : NodeId} {lexem : Lexem} :
      Move σ (left ++ ⟨q, lexem, .nodes []⟩ :: right) σ (left ++ right)
  | put {σ : Stage ω} {left right : List Post} {q : NodeId} {lexem : Lexem} {anchor : Option NodeId}
      {ns ns' : List NodeId} {h : Host} (hq : q.index < σ.host.count) (hadds : Host.Adds q anchor σ.host h)
      (haim : q ∉ elementsOf (left ++ right) → (ns' ++ topsAt q right).head? = anchor) :
      Move σ (left ++ ⟨q, lexem, .nodes (ns ++ ns')⟩ :: right) (σ.onHost fun _ => h)
        (left ++ ⟨q, lexem, .nodes (ns ++ σ.host.next :: ns')⟩ :: right)
  | taken {σ : Stage ω} {left right : List Post} {q : NodeId} {lexem : Lexem} {ns ns' : List NodeId} {h : Host}
      (hdrops : Host.Drops q ns σ.host h) :
      Move σ (left ++ ⟨q, lexem, .nodes (ns ++ ns')⟩ :: right) (σ.onHost fun _ => h)
        (left ++ ⟨q, lexem, .nodes ns'⟩ :: right)
  | raised {σ : Stage ω} {left right : List Post} {q : NodeId} {lexem : Lexem} {anchor : Option NodeId} {h : Host}
      (hq : q.index < σ.host.count) (hadds : Host.Adds q anchor σ.host h)
      (haim : q ∉ elementsOf (left ++ right) → (topsAt q right).head? = anchor) (hallows : ρ.allows q lexem) :
      Move σ (left ++ right) (σ.onHost fun _ => h) (left ++ ⟨q, lexem, .element σ.host.next⟩ :: right)
  /-- An element goes with everything that stands under it. -/
  | dropped {σ : Stage ω} {left inner right : List Post} {q n : NodeId} {lexem : Lexem} {h : Host}
      (hinner : ∀ post ∈ inner, post.node = n ∨ post.node ∈ elementsOf inner)
      (hstill : ∀ post ∈ inner, ∀ m, post.mark ≠ .hook m) (hdrops : Host.Drops q [n] σ.host h) :
      Move σ (left ++ (inner ++ ⟨q, lexem, .element n⟩ :: right)) (σ.onHost fun _ => h) (left ++ right)
  | worded {σ : Stage ω} {posts : List Post} {post : Post} {n : NodeId} {value : String} (hpost : post ∈ posts)
      (hn : n ∈ post.mark.tops) : Move σ posts (σ.onHost (·.setText n value)) posts
  | written {σ : Stage ω} {left right : List Post} {q : NodeId} {lexem : Lexem} {e : Engine} {i : Instruction}
      {ws : List Write} (hq : q.index < σ.host.count) (hadmits : ρ.Admits e) (hspace : e.isTarget lexem.space = true)
      (hword : e.instruction? lexem = some i) (hwrites : lexem.writes i = some ws) (hallows : ρ.allows q lexem) :
      Move σ (left ++ right) (σ.onHost (·.writeAll q ws)) (left ++ ⟨q, lexem, .entries⟩ :: right)
  | rewritten {σ : Stage ω} {left right : List Post} {q : NodeId} {lexem old : Lexem} {e : Engine} {i : Instruction}
      {ws : List Write} {f : Host → Host} (hq : q.index < σ.host.count) (hengine : ρ.judge .entries = some e)
      (hspace : e.isTarget lexem.space = true) (hword : e.instruction? lexem = some i)
      (holdWord : e.instruction? old = some i) (hold : old.writes i = some ws)
      (hrewrite : e.rewrite lexem old q i = some f) (hfollows : ρ.follows lexem old) (hallows : ρ.allows q lexem) :
      Move σ (left ++ ⟨q, old, .entries⟩ :: right) (σ.onHost f) (left ++ ⟨q, lexem, .entries⟩ :: right)
  | cleared {σ : Stage ω} {left right : List Post} {q : NodeId} {lexem : Lexem} {e : Engine}
      (hq : q.index < σ.host.count) (hengine : ρ.judge .entries = some e) (hsuits : e.Suits lexem .entries) :
      Move σ (left ++ ⟨q, lexem, .entries⟩ :: right) (σ.onHost (lexem.clear q)) (left ++ right)
  | bound {σ : Stage ω} {left right : List Post} {q : NodeId} {lexem : Lexem} {event : String} {listener : Listener}
      (hq : q.index < σ.host.count) (hevent : lexem.stringArg 0 = .ok event) (hlistener : lexem.listener = .ok listener)
      (hallows : ρ.allows q lexem) :
      Move σ (left ++ right) (σ.onHost fun h => (h.addListener q event listener).2)
        (left ++ ⟨q, lexem, .listener (σ.host.addListener q event listener).1⟩ :: right)
  | rebound {σ : Stage ω} {left right : List Post} {q : NodeId} {lexem old : Lexem} {id : ListenerId}
      {event : String} {listener : Listener} (hevent : lexem.stringArg 0 = .ok event)
      (holdEvent : old.stringArg 0 = .ok event) (hlistener : lexem.listener = .ok listener)
      (hallows : ρ.allows q lexem) :
      Move σ (left ++ ⟨q, old, .listener id⟩ :: right) (σ.onHost (·.rebind id listener))
        (left ++ ⟨q, lexem, .listener id⟩ :: right)
  | unbound {σ : Stage ω} {left right : List Post} {q : NodeId} {lexem : Lexem} {id : ListenerId} {event : String} :
      Move σ (left ++ ⟨q, lexem, .listener id⟩ :: right) (σ.onHost (·.removeListener q event id)) (left ++ right)
  | hooked {σ : Stage ω} {left right : List Post} {q n : NodeId} {lexem : Lexem} {hook : Identity} {h : Host} {w : ω}
      (hhook : lexem.hookArg = .ok hook) (hcount : σ.host.count ≤ h.count)
      (hcall : b.hookRender hook n lexem.hookArgs σ.host σ.world = .ok h w)
      (hname : Instruction.ofName? lexem.name = some .onDom) (hallows : ρ.allows q lexem) :
      Move σ (left ++ right) ((σ.onHost fun _ => h).inWorld w) (left ++ ⟨q, lexem, .hook n⟩ :: right)
  | rehooked {σ : Stage ω} {left right : List Post} {q n : NodeId} {lexem old : Lexem} {hook : Identity} {h : Host}
      {w : ω} (hhook : lexem.hookArg = .ok hook) (hold : old.hookArg = .ok hook) (hcount : σ.host.count ≤ h.count)
      (hcall : b.hookDiff hook n lexem.hookArgs old.hookArgs σ.host σ.world = .ok h w)
      (hname : Instruction.ofName? lexem.name = some .onDom) (hallows : ρ.allows q lexem) :
      Move σ (left ++ ⟨q, old, .hook n⟩ :: right) ((σ.onHost fun _ => h).inWorld w)
        (left ++ ⟨q, lexem, .hook n⟩ :: right)
  | unhooked {σ : Stage ω} {left right : List Post} {q n : NodeId} {lexem : Lexem} {hook : Identity} {h : Host} {w : ω}
      (hhook : lexem.hookArg = .ok hook) (hcount : σ.host.count ≤ h.count)
      (hcall : b.hookRemove hook n lexem.hookArgs σ.host σ.world = .ok h w) :
      Move σ (left ++ ⟨q, lexem, .hook n⟩ :: right) ((σ.onHost fun _ => h).inWorld w) (left ++ right)
  /-- Where words need not account for entries, it is only known that they keep to the places that they name. -/
  | shown {σ : Stage ω} {left right : List Post} {q : NodeId} {lexem old : Lexem} {mark : Mark} {places : List Place}
      {h : Host} (hengine : ρ.judge .entries = none) (hjudge : ρ.judge mark = none)
      (hstrokes : Host.Strokes q places σ.host h) (hplaces : ∀ π ∈ places, old.Names π ∨ lexem.Names π)
      (hallows : lexem = old ∨ ρ.allows q lexem) :
      Move σ (left ++ ⟨q, old, mark⟩ :: right) (σ.onHost fun _ => h) (left ++ ⟨q, lexem, mark⟩ :: right)
  | forgotten {σ : Stage ω} {left right : List Post} {q : NodeId} {lexem : Lexem} {mark : Mark}
      (hengine : ρ.judge mark = none) (htops : mark.tops = []) :
      Move σ (left ++ ⟨q, lexem, mark⟩ :: right) σ (left ++ right)

/-- Any number of moves, one after the other. -/
def Moves (σ : Stage ω) (posts : List Post) (σ' : Stage ω) (posts' : List Post) : Prop :=
  Relation.ReflTransGen (fun x y : Stage ω × List Post => Move ρ b x.1 x.2 y.1 y.2) (σ, posts) (σ', posts')

variable {ρ b} {σ σ₁ σ' : Stage ω} {posts posts₁ posts' left right : List Post}

/-- No node of the host is lost. -/
theorem Move.count_le (h : Move ρ b σ posts σ' posts') : σ.host.count ≤ σ'.host.count := by
  have hsame : ∀ {h : Host}, h.count = σ.host.count → σ.host.count ≤ h.count := fun hcount =>
    Nat.le_of_eq hcount.symm
  cases h with
  | acted | tabled | renamed | opened | closed | forgotten => exact Nat.le_refl _
  | put _ hadds => exact Nat.le_of_succ_le (Nat.le_of_eq hadds.puts.count.symm)
  | raised _ hadds => exact Nat.le_of_succ_le (Nat.le_of_eq hadds.puts.count.symm)
  | taken hdrops => exact hsame hdrops.takes.count
  | dropped _ _ hdrops => exact hsame hdrops.takes.count
  | worded => exact hsame (Host.SameTree.entry σ.host _ _ _).count
  | written => exact hsame (Host.Inscribes.writeAll σ.host _ _).tree.count
  | rewritten _ _ _ _ _ _ hrewrite => exact hsame (rewrite_inscribes hrewrite σ.host).tree.count
  | cleared => exact hsame (Lexem.clear_inscribes _ _ σ.host).tree.count
  | bound => exact hsame (Host.SameTree.addListener σ.host _ _ _).count
  | rebound => exact hsame (Host.SameTree.rebind σ.host _ _).count
  | unbound => exact hsame (Host.SameTree.removeListener σ.host _ _ _).count
  | hooked _ hcount => exact hcount
  | rehooked _ _ hcount => exact hcount
  | unhooked _ hcount => exact hcount
  | shown _ _ hstrokes => exact hsame hstrokes.inscribes.tree.count

/-- Elements that come with a move are nodes of the host. -/
theorem Move.made (h : Move ρ b σ posts σ' posts')
    (hposts : ∀ n ∈ elementsOf posts, n.index < σ.host.count) : ∀ n ∈ elementsOf posts', n.index < σ'.host.count := by
  intro n hn
  have hcount := h.count_le
  cases h with
  | acted | tabled | worded => exact Nat.lt_of_lt_of_le (hposts n hn) hcount
  | raised _ hadds =>
      simp only [elementsOf_append, elementsOf_cons, Post.element?, List.mem_append, Option.mem_toList] at hn hposts
      rcases hn with hn | heq | hn
      · exact Nat.lt_of_lt_of_le (hposts n (.inl hn)) hcount
      · cases heq
        rw [Stage.onHost_host, hadds.puts.count]
        exact Nat.lt_succ_self _
      · exact Nat.lt_of_lt_of_le (hposts n (.inr hn)) hcount
  | _ =>
      refine Nat.lt_of_lt_of_le (hposts n ?_) hcount
      simp only [elementsOf_append, elementsOf_cons, Post.element?, List.mem_append, Option.mem_toList] at hn ⊢
      tauto

namespace Moves

theorem refl : Moves ρ b σ posts σ posts := Relation.ReflTransGen.refl

theorem one (h : Move ρ b σ posts σ' posts') : Moves ρ b σ posts σ' posts' := Relation.ReflTransGen.single h

theorem trans (h : Moves ρ b σ posts σ₁ posts₁) (h' : Moves ρ b σ₁ posts₁ σ' posts') : Moves ρ b σ posts σ' posts' :=
  Relation.ReflTransGen.trans h h'

/-- What every move keeps is kept by all of them together. -/
theorem preserves {I : Stage ω → List Post → Prop}
    (hstep : ∀ {σ posts σ' posts'}, Move ρ b σ posts σ' posts' → I σ posts → I σ' posts')
    (h : Moves ρ b σ posts σ' posts') (hI : I σ posts) : I σ' posts' := by
  have hall : ∀ {y : Stage ω × List Post},
      Relation.ReflTransGen (fun x y => Move ρ b x.1 x.2 y.1 y.2) (σ, posts) y → I y.1 y.2 := by
    intro y h
    induction h with
    | refl => exact hI
    | tail _ hmove ih => exact hstep hmove ih
  exact hall h

theorem count_le (h : Moves ρ b σ posts σ' posts') : σ.host.count ≤ σ'.host.count :=
  h.preserves (I := fun τ _ => σ.host.count ≤ τ.host.count) (fun hmove hle => Nat.le_trans hle hmove.count_le)
    (Nat.le_refl _)

/-- Bodies are run and render functions are called. -/
theorem evaluation {w : ω} (h : Evaluation b σ.world w) : Moves ρ b σ posts (σ.inWorld w) posts := by
  have hall : ∀ {w₀ w₁ : ω}, Evaluation b w₀ w₁ → ∀ {σ : Stage ω}, σ.world = w₀ →
      Moves ρ b σ posts (σ.inWorld w₁) posts := by
    intro w₀ w₁ h
    induction h with
    | refl =>
        rintro σ rfl
        exact .refl
    | run hrun =>
        rintro σ rfl
        exact .one (.acted (.run hrun))
    | render hrender _ ih =>
        rintro σ rfl
        exact (Moves.one (.acted (.render hrender))).trans (ih rfl)
  exact hall h rfl

/-- Components are told. -/
theorem told {l : Lifecycle} {ids : List InstanceId} {w w' : ω} (h : Told b l ids w w') :
    ∀ {σ : Stage ω}, σ.world = w → Moves ρ b σ posts (σ.inWorld w') posts := by
  induction h with
  | nil =>
      rintro σ rfl
      exact .refl
  | cons head _ ih =>
      rintro σ rfl
      exact (Moves.one (.acted (.lifecycle head))).trans (ih rfl)

end Moves

end Parlance
