import Parlance.Proofs.Engine.Listening

/-! What abides through a pass. An entry of a node stays as it is as long as no word of the output, neither of those
that were there before nor of those that come, puts anything in its place. -/

namespace Parlance

open Pass Host

variable {ω : Type} {b : Behaviour ω} {e : Engine} {n p : NodeId} {π : Place}

/-- Whether a word that is carried out puts something at a place of a node. -/
def Engine.Puts (e : Engine) (word : NodeId × Lexem) (n : NodeId) (π : Place) : Prop :=
  word.1 = n ∧ ∃ i, e.instruction? word.2 = some i ∧ π ∈ word.2.spots i

/-- Hooks leave a place of a node alone, and do not make the host forget nodes. -/
def Behaviour.Leaves (b : Behaviour ω) (n : NodeId) (π : Place) : Prop :=
  ∀ {h w h' w'}, b.Hooks h w h' w' → h.count ≤ h'.count ∧
    (n.index < h.count → (h'.content n).stored π = (h.content n).stored π)

/-- The passes of one engine in which no word puts anything at a place of a node, and none loses all of its
arguments. -/
def Regime.sparing (e : Engine) (n : NodeId) (π : Place) : Regime where
  engine := some e
  follows lexem old := lexem.args = [] → old.args = []
  allows q lexem := e.isTarget lexem.space = true → ¬ e.Puts (q, lexem) n π
  args _ _ _ h := h

/-- Posts are of the same words whatever is allowed. -/
theorem Census.regime {ρ ρ' : Regime} (hengine : ρ'.engine = ρ.engine) (hwhole : ρ'.whole = ρ.whole)
    {t : Array Instance} {lexems : List Lexem} {slots : List Slot} {posts : List Post}
    (h : Census ρ t p lexems slots posts) : Census ρ' t p lexems slots posts := by
  have hsuits : ∀ {lexem mark}, ρ.Suits lexem mark → ρ'.Suits lexem mark := fun h e he => h e (by
    rwa [Regime.judge_eq_some, hengine, hwhole, ← Regime.judge_eq_some] at he)
  induction h with
  | nil => exact .nil
  | part hslot hown _ _ ihinner ihouter => exact .part hslot (hsuits hown) ihinner ihouter
  | component hpresent hparent hadmits hwitness hdeveloped hown _ _ ihinner ihouter =>
      exact .component hpresent hparent (fun e he => hadmits e (hengine ▸ he)) hwitness hdeveloped (hsuits hown)
        ihinner ihouter

/-- Every engine that puts entries on nodes is that of the run. -/
theorem Regime.judge_sparing {mark : Mark} {e' : Engine} (h : (Regime.sparing e n π).judge mark = some e') : e = e' :=
  Option.some.inj (Regime.judge_eq_some.mp h).2

variable {σ σ' : Stage ω} {posts posts' : List Post}

/-- No post stands for an entry at a place of a node. -/
def Unclaimed (e : Engine) (n : NodeId) (π : Place) (posts : List Post) : Prop :=
  ∀ post ∈ posts, post.mark = .entries → ¬ e.Puts post.word n π

/-- Strokes on a node leave every other place alone. -/
theorem Host.Strokes.abides {q : NodeId} {places : List Place} {h h' : Host} (hstrokes : Strokes q places h h')
    (hspared : q = n → π ∉ places) : (h'.content n).stored π = (h.content n).stored π := by
  by_cases hq : q = n
  · subst hq
    exact hstrokes.stored (hspared rfl)
  · rw [hstrokes.inscribes.others n (Ne.symm hq)]

/-- A move leaves alone what no post claims. -/
theorem Move.abides (hhooks : b.Leaves n π) (hmove : Move (.sparing e n π) b σ posts σ' posts')
    (hn : n.index < σ.host.count) (hposts : Unclaimed e n π posts) :
    Unclaimed e n π posts' ∧ (σ'.host.content n).stored π = (σ.host.content n).stored π := by
  have hfresh : n ≠ σ.host.next := fun heq => by
    rw [heq] at hn
    exact Nat.lt_irrefl _ hn
  have hgone : ∀ {left right : List Post} (gone : List Post), Unclaimed e n π (left ++ (gone ++ right)) →
      Unclaimed e n π (left ++ right) := fun _ h post hpost => h post (by
    simp only [List.mem_append] at hpost ⊢
    tauto)
  have hnew : ∀ {left right : List Post} {post : Post}, Unclaimed e n π (left ++ right) →
      (post.mark = .entries → ¬ e.Puts post.word n π) → Unclaimed e n π (left ++ post :: right) := by
    intro left right post h hown post' hpost'
    simp only [List.mem_append, List.mem_cons] at hpost'
    rcases hpost' with hpost' | rfl | hpost'
    · exact h post' (by simp [hpost'])
    · exact hown
    · exact h post' (by simp [hpost'])
  have hinstead : ∀ {left right : List Post} {post post' : Post}, Unclaimed e n π (left ++ post :: right) →
      (post'.mark = .entries → ¬ e.Puts post'.word n π) → Unclaimed e n π (left ++ post' :: right) :=
    fun {left right post _} h hown => hnew (hgone [post] h) hown
  cases hmove with
  | acted | tabled => exact ⟨hposts, rfl⟩
  | renamed hloose =>
      refine ⟨hinstead hposts fun hmark => ?_, rfl⟩
      simp only at hmark
      subst hmark
      rcases hloose with hloose | hnone
      · cases hloose
      · cases hnone
  | opened => exact ⟨hnew hposts (by simp), rfl⟩
  | @closed left right q lexem => exact ⟨hgone [⟨q, lexem, .nodes []⟩] hposts, rfl⟩
  | put _ hadds => exact ⟨hinstead hposts (by simp), congrArg (Content.stored · π) (hadds.content n hfresh)⟩
  | taken hdrops => exact ⟨hinstead hposts (by simp), congrArg (Content.stored · π) (hdrops.content n)⟩
  | raised _ hadds => exact ⟨hnew hposts (by simp), congrArg (Content.stored · π) (hadds.content n hfresh)⟩
  | @dropped left inner right q m lexem _ _ _ hdrops =>
      refine ⟨hgone (inner ++ [⟨q, lexem, .element m⟩]) ?_, congrArg (Content.stored · π) (hdrops.content n)⟩
      simpa only [List.append_assoc, List.cons_append, List.nil_append] using hposts
  | @worded _ _ m value =>
      refine ⟨hposts, ?_⟩
      rw [Stage.onHost_host, Host.setText, Host.content, node_record, modifyContent, node_modify]
      split
      · cases π <;> rfl
      · rfl
  | @written _ _ q lexem _ i ws _ hadmits hspace hword hwrites hallows =>
      obtain rfl := hadmits e rfl
      have hnot := hallows hspace
      refine ⟨hnew hposts fun _ => hnot, ?_⟩
      have hstrokes : Strokes q (lexem.spots i) σ.host (σ.host.writeAll q ws) :=
        .foldl (fun w hw _ => .write (Lexem.spots_eq hwrites ▸ List.mem_map_of_mem hw) .refl) σ.host
      exact hstrokes.abides fun hq hπ => hnot ⟨hq, i, hword, hπ⟩
  | @rewritten left right q lexem old _ i ws f _ hengine hspace hword holdWord hold hrewrite _ hallows =>
      obtain rfl := Regime.judge_sparing hengine
      have hnot := hallows hspace
      refine ⟨hinstead hposts fun _ => hnot, ?_⟩
      refine (rewrite_strokes hrewrite (List.subset_append_left _ _) (List.subset_append_right _ _) σ.host).abides ?_
      intro hq hπ
      rcases List.mem_append.mp hπ with hπ | hπ
      · exact hnot ⟨hq, i, hword, hπ⟩
      · exact hposts ⟨q, old, .entries⟩ (by simp) rfl ⟨hq, i, holdWord, hπ⟩
  | @cleared left right q lexem _ _ hengine hsuits =>
      obtain rfl := Regime.judge_sparing hengine
      refine ⟨hgone [⟨q, lexem, .entries⟩] hposts, ?_⟩
      cases hsuits with
      | @entries i ws hspace hword hwrites =>
      rw [Stage.onHost_host, Lexem.clear_eq, Engine.ofName_of_instruction hword]
      have hstrokes : Strokes q (lexem.spots i) σ.host ((lexem.spots i).foldl (fun h place => h.erase q place) σ.host) :=
        .foldl (fun _ hplace _ => .erase hplace .refl) σ.host
      refine hstrokes.abides fun hq hπ => ?_
      exact hposts ⟨q, lexem, .entries⟩ (by simp) rfl ⟨hq, i, hword, hπ⟩
  | bound =>
      exact ⟨hnew hposts (by simp), congrArg (Content.stored · π) ((SameContents.addListener σ.host _ _ _).content n)⟩
  | rebound => exact ⟨hinstead hposts (by simp), rfl⟩
  | @unbound left right q lexem id event =>
      exact ⟨hgone [⟨q, lexem, .listener id⟩] hposts,
        congrArg (Content.stored · π) ((SameContents.removeListener σ.host q event id).content n)⟩
  | hooked _ _ hcall => exact ⟨hnew hposts (by simp), (hhooks (.render hcall)).2 hn⟩
  | rehooked _ _ _ hcall => exact ⟨hinstead hposts (by simp), (hhooks (.diff hcall)).2 hn⟩
  | @unhooked left right q m lexem _ _ _ _ _ hcall =>
      exact ⟨hgone [⟨q, lexem, .hook m⟩] hposts, (hhooks (.remove hcall)).2 hn⟩
  | shown hengine => cases hengine
  | forgotten hengine => cases hengine

/-- An evolution leaves alone what the posts do not claim, neither the old ones nor the new ones. -/
theorem Evolves.abides {goal : List NodeId → Prop} {olds lexems : List Lexem} {slots slots' : List Slot}
    {cs : List InstanceId} (h : Evolves (.sparing e n π) b p goal σ olds slots σ' lexems slots') (hhooks : b.Leaves n π)
    (hholds : Holds σ.instances slots cs) (hnodup : cs.Nodup) (hcensus : Census (.lasting e) σ.instances p olds slots posts)
    (hfollows : (Regime.lasting e).Follows σ.instances olds slots σ'.instances lexems slots')
    (hgrounded : Grounded σ.host p posts) (hn : n.index < σ.host.count) (hold : Unclaimed e n π posts)
    (hnew : ∀ posts', Census (.lasting e) σ'.instances p lexems slots' posts' →
      ∀ post ∈ posts', e.isTarget post.lexem.space = true → ¬ e.Puts post.word n π) :
    (σ'.host.content n).stored π = (σ.host.content n).stored π := by
  have hspared : Census (.sparing e n π) σ.instances p olds slots posts := hcensus.regime (by rfl) (by rfl)
  obtain ⟨posts', hposts', hmoves, -⟩ := h.moves hholds hnodup hspared hfollows
  have hlasting : Census (.lasting e) σ'.instances p lexems slots' posts' := hposts'.regime (by rfl) (by rfl)
  -- the parent passes for an element of an output here, so that it does not matter what comes next
  let outside : List Post := [⟨p, ⟨"", "", []⟩, .element p⟩]
  have hrow : Moves (.sparing e n π) b σ (outside ++ posts ++ []) σ' (outside ++ posts' ++ []) :=
    hmoves (fun hcall => (hhooks hcall).1) (hnew posts' hlasting) outside [] hgrounded fun hp =>
      absurd (by simp [outside, elementsOf, Post.element?]) hp
  have hstart : Unclaimed e n π (outside ++ posts ++ []) := by
    intro post hpost hmark
    simp only [List.append_nil, List.mem_append, outside, List.mem_singleton] at hpost
    rcases hpost with rfl | hpost
    · cases hmark
    · exact hold post hpost hmark
  have hkept := hrow.preserves (I := fun τ ps => n.index < τ.host.count ∧ Unclaimed e n π ps ∧
      (τ.host.content n).stored π = (σ.host.content n).stored π)
    (fun hmove hsofar => by
      obtain ⟨hlt, hunclaimed, hstored⟩ := hsofar
      obtain ⟨hunclaimed', hstored'⟩ := hmove.abides hhooks hlt hunclaimed
      exact ⟨Nat.lt_of_lt_of_le hlt hmove.count_le, hunclaimed', hstored'.trans hstored⟩)
    ⟨hn, hstart, rfl⟩
  exact hkept.2.2

end Parlance
