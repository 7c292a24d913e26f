import Parlance.Proofs.Engine.Progress
import Parlance.Proofs.Engine.Tending
import Parlance.Proofs.Host.Confinement

/-! Passes that keep to a region. Where posts and new words have to do with nothing else, neither has a pass. -/

namespace Parlance

open Pass

variable {ω : Type} {b : Behaviour ω}

/-- Hooks do nothing, as if there were none. -/
def Behaviour.Hookless (b : Behaviour ω) : Prop := ∀ h w h' w', b.Hooks h w h' w' → h' = h ∧ w' = w

theorem Behaviour.Hookless.quiet (hhookless : b.Hookless) : b.Quiet := fun hcall => by
  obtain ⟨rfl, -⟩ := hhookless _ _ _ _ hcall
  exact ⟨.refl _, fun _ => rfl, [], (List.append_nil _).symm, by simp⟩

/-- A word may be carried out on a node. -/
structure Region.Allows (S : Region) (q : NodeId) (lexem : Lexem) : Prop where
  node : S.nodes q
  places : ∀ π, lexem.Names π → S.places q π
  hooks : Instruction.ofName? lexem.name = some .onDom → S.hooks

/-- Passes of whatever engines, after which words stand only where a region allows them. -/
def Regime.within (S : Region) : Regime := { Regime.loose with allows := S.Allows }

/-- A post that has to do with nothing out of a region. -/
structure Post.Inside (S : Region) (post : Post) : Prop where
  node : S.nodes post.node
  tops : ∀ n ∈ post.mark.tops, S.tops n
  places : ∀ π, post.lexem.Names π → S.places post.node π
  listener : ∀ id, post.mark = .listener id → S.listeners (id.number - 1)
  hooks : ∀ n, post.mark = .hook n → S.hooks

/-- What has happened since a host keeps to a region, and so do posts. -/
structure Keeping (S : Region) (h₀ : Host) (σ : Stage ω) (posts : List Post) : Prop where
  confined : h₀.Confined S σ.host
  inside : ∀ post ∈ posts, post.Inside S

variable {S : Region} {h₀ h : Host} {σ σ' : Stage ω} {posts posts' left right news : List Post} {t : Array Instance}
variable {w : ω} {q : NodeId} {lexem : Lexem} {mark : Mark}

namespace Keeping

/-- Posts come in the place of others. -/
theorem step (olds : List Post) (hkeeping : Keeping S h₀ σ (left ++ (olds ++ right))) (hconfined : σ.host.Confined S h)
    (hnews : ∀ post ∈ news, post.Inside S) : Keeping S h₀ ⟨h, t, w⟩ (left ++ (news ++ right)) := by
  refine ⟨hkeeping.confined.trans hconfined, fun post hpost => ?_⟩
  simp only [List.mem_append] at hpost
  rcases hpost with hpost | hpost | hpost
  · exact hkeeping.inside post (by simp [hpost])
  · exact hnews post hpost
  · exact hkeeping.inside post (by simp [hpost])

/-- The host stays. -/
theorem same (olds : List Post) (hkeeping : Keeping S h₀ σ (left ++ (olds ++ right)))
    (hnews : ∀ post ∈ news, post.Inside S) :
    Keeping S h₀ ⟨σ.host, t, w⟩ (left ++ (news ++ right)) := hkeeping.step olds (.refl _) hnews

end Keeping

/-- A new post with nothing that other ones could have. -/
theorem Post.Inside.plain (mark : Mark) (hallows : S.Allows q lexem) (htops : ∀ n ∈ mark.tops, S.tops n)
    (hlistener : ∀ id, mark = .listener id → S.listeners (id.number - 1)) (hhook : ∀ n, mark = .hook n → S.hooks) :
    ∀ post ∈ [(⟨q, lexem, mark⟩ : Post)], post.Inside S := fun post hpost => by
  obtain rfl := List.mem_singleton.mp hpost
  exact ⟨hallows.node, htops, hallows.places, hlistener, hhook⟩

/-- Other tops come under a post. -/
theorem Post.Inside.nodes {ns ns' : List NodeId} (hold : (⟨q, lexem, .nodes ns⟩ : Post).Inside S)
    (htops : ∀ n ∈ ns', S.tops n) : ∀ post ∈ [(⟨q, lexem, .nodes ns'⟩ : Post)], post.Inside S := fun post hpost => by
  obtain rfl := List.mem_singleton.mp hpost
  exact ⟨hold.node, htops, hold.places, nofun, nofun⟩

/-- Another word comes to a post. -/
theorem Post.Inside.renamed {old : Lexem} (hold : (⟨q, old, mark⟩ : Post).Inside S)
    (hallows : lexem = old ∨ S.Allows q lexem) : ∀ post ∈ [(⟨q, lexem, mark⟩ : Post)], post.Inside S :=
  fun post hpost => by
    obtain rfl := List.mem_singleton.mp hpost
    refine ⟨hold.node, hold.tops, ?_, hold.listener, hold.hooks⟩
    rcases hallows with rfl | hallows
    · exact hold.places
    · exact hallows.places

/-- Moves keep to the region of their words. -/
theorem Move.keeping (hmove : Move (.within S) b σ posts σ' posts') (hopen : S.Open h₀)
    (hhooks : S.hooks → b.Hookless) (h : Keeping S h₀ σ posts) : Keeping S h₀ σ' posts' := by
  have hnext : S.tops σ.host.next := hopen.tops _ h.confined.count
  have hhooked : ∀ {h' : Host} {w' : ω} {left : List Post} (olds : List Post) {news right : List Post}, S.hooks →
      b.Hooks σ.host σ.world h' w' →
      Keeping S h₀ σ (left ++ (olds ++ right)) → (∀ post ∈ news, post.Inside S) →
      Keeping S h₀ ((σ.onHost fun _ => h').inWorld w') (left ++ (news ++ right)) := by
    intro h' w' left olds news right hcalled hcall hkeeping hnews
    obtain ⟨rfl, -⟩ := hhooks hcalled _ _ _ _ hcall
    exact hkeeping.same olds hnews
  have hnone : ∀ post ∈ ([] : List Post), post.Inside S := by simp
  cases hmove with
  | acted | tabled => exact ⟨h.confined, h.inside⟩
  | @renamed left right q lexem old mark _ hallows =>
      exact h.same [_] (.renamed (h.inside ⟨q, old, mark⟩ (by simp)) (.inr hallows))
  | opened hallows => exact Keeping.same [] h (.plain (.nodes []) hallows (by simp [Mark.tops]) nofun nofun)
  | closed => exact h.same [_] hnone
  | forgotten => exact h.same [_] hnone
  | @put left right q lexem anchor ns ns' h' hq hadds =>
      have hold := h.inside ⟨q, lexem, .nodes (ns ++ ns')⟩ (by simp)
      refine Keeping.step [_] h (.adds hadds hold.node hnext) (hold.nodes fun n hn => ?_)
      simp only [List.mem_append, List.mem_cons] at hn
      rcases hn with hn | rfl | hn
      · exact hold.tops n (List.mem_append_left _ hn)
      · exact hnext
      · exact hold.tops n (List.mem_append_right _ hn)
  | @taken left right q lexem ns ns' h' hdrops =>
      have hold := h.inside ⟨q, lexem, .nodes (ns ++ ns')⟩ (by simp)
      exact Keeping.step [_] h (.drops hdrops hold.node fun n hn => hold.tops n (List.mem_append_left _ hn))
        (hold.nodes fun n hn => hold.tops n (List.mem_append_right _ hn))
  | raised _ hadds _ hallows =>
      exact Keeping.step [] h (.adds hadds hallows.node hnext)
        (.plain (.element σ.host.next) hallows (by simpa [Mark.tops] using hnext) nofun nofun)
  | @dropped left inner right q n lexem h' _ _ hdrops =>
      have hold := h.inside ⟨q, lexem, .element n⟩ (by simp)
      have hnow : Keeping S h₀ σ (left ++ ((inner ++ [⟨q, lexem, .element n⟩]) ++ right)) := by
        rw [List.append_assoc]
        exact h
      exact hnow.step _ (.drops hdrops hold.node hold.tops) hnone
  | worded hpost hn => exact ⟨h.confined.trans (.worded _ ((h.inside _ hpost).tops _ hn)), h.inside⟩
  | @written left right q lexem _ i ws _ _ _ hword hwrites hallows =>
      have hstrokes : Host.Strokes q (lexem.spots i) σ.host (σ.host.writeAll q ws) :=
        .foldl (fun w hw _ => .write (Lexem.spots_eq hwrites ▸ List.mem_map_of_mem hw) .refl) σ.host
      have hnames : ∀ π ∈ lexem.spots i, lexem.Names π := fun π hπ => ⟨i, Engine.ofName_of_instruction hword, hπ⟩
      exact Keeping.step [] h (.strokes hstrokes hallows.node fun π hπ => hallows.places π (hnames π hπ))
        (.plain .entries hallows (by simp [Mark.tops]) nofun nofun)
  | rewritten _ hengine => cases hengine
  | cleared _ hengine => cases hengine
  | @bound left right q lexem event listener hq _ _ hallows =>
      have hlast : S.listeners σ.host.listeners.size := hopen.listeners _ h.confined.size
      refine Keeping.step [] h (.binds event listener hallows.node hq hlast)
        (.plain (.listener _) hallows (by simp [Mark.tops]) ?_ nofun)
      rintro id ⟨⟩
      exact hlast
  | @rebound left right q lexem old id event listener _ _ _ hallows =>
      have hold := h.inside ⟨q, old, .listener id⟩ (by simp)
      exact Keeping.step [_] h (.rebinds id listener (hold.listener id rfl)) (hold.renamed (.inr hallows))
  | @unbound left right q lexem id event =>
      have hold := h.inside ⟨q, lexem, .listener id⟩ (by simp)
      exact Keeping.step [_] h (.unbinds event id hold.node (hold.listener id rfl)) hnone
  | @hooked left right q n lexem hook h' w' _ _ hcall hname hallows =>
      have hcalled := hallows.hooks hname
      exact hhooked [] hcalled (.render hcall) h
        (.plain (.hook n) hallows (by simp [Mark.tops]) nofun fun _ _ => hcalled)
  | @rehooked left right q n lexem old hook h' w' _ _ _ hcall hname hallows =>
      have hold := h.inside ⟨q, old, .hook n⟩ (by simp)
      exact hhooked [_] (hallows.hooks hname) (.diff hcall) h (hold.renamed (.inr hallows))
  | @unhooked left right q n lexem hook h' w' _ _ hcall =>
      have hold := h.inside ⟨q, lexem, .hook n⟩ (by simp)
      exact hhooked [_] (hold.hooks n rfl) (.remove hcall) h hnone
  | @shown left right q lexem old mark places h' _ _ hstrokes hplaces hallows =>
      have hold := h.inside ⟨q, old, mark⟩ (by simp)
      refine Keeping.step [_] h (.strokes hstrokes hold.node fun π hπ => ?_) (hold.renamed hallows)
      rcases hplaces π hπ with hnames | hnames
      · exact hold.places π hnames
      · rcases hallows with rfl | hallows
        · exact hold.places π hnames
        · exact hallows.places π hnames

theorem Moves.keeping (hmoves : Moves (.within S) b σ posts σ' posts') (hopen : S.Open h₀)
    (hhooks : S.hooks → b.Hookless) (h : Keeping S h₀ σ posts) : Keeping S h₀ σ' posts' :=
  hmoves.preserves (fun hmove => hmove.keeping hopen hhooks) h

end Parlance
