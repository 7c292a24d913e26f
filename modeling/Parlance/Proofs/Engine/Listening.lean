import Parlance.Proofs.Engine.Hearing
import Parlance.Proofs.Host.Attachment

/-! What an event on a node calls after any run of passes: for every `on` of the retained outputs with that event and on
that node its handler and its extras, and nothing else. -/

namespace Parlance

open Pass

variable {ω : Type} {b : Behaviour ω} {ρ : Regime} {e : Engine}

/-- What a word that is placed on a node makes an event on a node call. -/
def Engine.calls (e : Engine) (n : NodeId) (event : String) (word : NodeId × Lexem) : Option Listener :=
  if word.1 = n ∧ e.isTarget word.2.space = true ∧ e.instruction? word.2 = some .on ∧
      (word.2.arg 0).toText = event then word.2.listener.toOption
  else none

/-- The passes of one engine, in which no word loses all of its arguments. -/
def Regime.lasting (e : Engine) : Regime where
  engine := some e
  follows lexem old := lexem.args = [] → old.args = []
  allows _ _ := True
  args _ _ _ h := h

/-- Every post is of a word that may leave what the post says. -/
theorem Census.suits {t : Array Instance} {p : NodeId} {lexems : List Lexem} {slots : List Slot} {posts : List Post}
    (h : Census ρ t p lexems slots posts) : ∀ post ∈ posts, ρ.Suits post.lexem post.mark := by
  induction h with
  | nil => simp
  | part _ hsuits _ _ ihinner ihouter | component _ _ _ _ _ hsuits _ _ ihinner ihouter =>
      intro post hpost
      rcases List.mem_append.mp hpost with hpost | hpost
      · exact ihinner post hpost
      · rcases List.mem_cons.mp hpost with rfl | hpost
        · exact hsuits
        · exact ihouter post hpost

theorem Posted.suits {t : Array Instance} {os : Outputs} {posts : List Post} (h : Posted ρ t os posts) :
    ∀ post ∈ posts, ρ.Suits post.lexem post.mark := by
  induction h with
  | nil => simp
  | cons hown _ ih => exact fun post hpost => (List.mem_append.mp hpost).elim (hown.suits post) (ih post)

/-- Only a post with a listener is of a word that makes an event call something. -/
theorem Engine.Suits.calls_eq_none {lexem : Lexem} {mark : Mark} (h : e.Suits lexem mark)
    (hmark : ∀ id, mark ≠ .listener id) (q n : NodeId) (event : String) : e.calls n event (q, lexem) = none := by
  refine if_neg fun ⟨_, hspace, hword, _⟩ => ?_
  cases h with
  | nodes hidle => exact absurd (hidle hspace .on hword) nofun
  | element htag => simp [hword] at htag
  | entries _ hown hwrites =>
      rw [hword] at hown
      cases hown
      cases hwrites
  | listener => exact hmark _ rfl
  | hook _ hown => simp [hword] at hown

/-- What is bound to a node by ties calls what the words of the posts say. -/
theorem heard_tiesOf {posts : List Post} {targets : Array Listener} (hsuits : ∀ post ∈ posts, e.Suits post.lexem post.mark)
    (hlisteners : ∀ q id lexem, .listener q id lexem ∈ tiesOf posts → ∃ l, lexem.listener = .ok l ∧
      targets[id.number - 1]? = some l) (n : NodeId) (event : String) :
    ((boundTo n (tiesOf posts)).filter (·.2 = event)).filterMap (fun l => targets[l.1.number - 1]?) =
      (posts.map Post.word).filterMap (e.calls n event) := by
  induction posts with
  | nil => rfl
  | cons post posts ih =>
      have hrest := ih (fun post hpost => hsuits post (List.mem_cons_of_mem _ hpost)) fun q id lexem hmem =>
        hlisteners q id lexem (by rw [tiesOf_cons]; exact List.mem_append_right _ hmem)
      have hown : ((boundTo n post.tie?.toList).filter (·.2 = event)).filterMap (fun l => targets[l.1.number - 1]?) =
          (e.calls n event post.word).toList := by
        obtain ⟨q, lexem, mark⟩ := post
        have hmarks := hsuits _ List.mem_cons_self
        cases mark with
        | listener id =>
            obtain ⟨l, hl, hget⟩ := hlisteners q id lexem
              (by rw [tiesOf_cons]; exact List.mem_append_left _ (by simp [Post.tie?]))
            cases hmarks with
            | listener hspace hword =>
            by_cases hq : q = n <;> by_cases hevent : (lexem.arg 0).toText = event <;>
              simp [Post.tie?, boundTo, Tie.boundTo, Post.word, Engine.calls, hq, hevent, hspace, hword, hl, hget,
                Except.toOption]
        | _ =>
            rw [Post.word, hmarks.calls_eq_none (by simp)]
            rfl
      rw [tiesOf_cons, boundTo_append, List.filter_append, List.filterMap_append, hown, hrest, List.map_cons,
        List.filterMap_cons]
      cases e.calls n event post.word <;> rfl

section Heeding

variable {B : Bystanders b} {σ : Stage ω} {ties : List Tie} {lost : NodeId → Prop}

/-- The root is not reached from a node that is lost. -/
theorem Lost.not_attached (hlost : Lost B σ lost) {n : NodeId} (hn : lost n) : σ.host.isAttached n = false :=
  Host.isAttached_eq_false lost (fun hroot => (hlost _ hroot).1.inner rfl) (fun n q hn => (hlost n hn).2 q) hn

/-- An event on an attached node calls what the ties of the node say. -/
theorem Heeded.heard (h : Heeded B σ ties) {n : NodeId} (hattached : σ.host.isAttached n = true) (event : String) :
    (σ.host.heard n event).Perm
      (((boundTo n ties).filter (·.2 = event)).filterMap fun l => σ.host.listeners[l.1.number - 1]?) := by
  obtain ⟨lost, hlost, hbound⟩ := h.bound
  have hkept : ¬ lost n := fun hn => by simp [hlost.not_attached hn] at hattached
  exact ((hbound n hkept).filter _).filterMap _

end Heeding

/-- After any run of passes an event on an attached node calls, each once, the handlers that the retained outputs bind
to it on that node, with the extras of the latest pass. -/
theorem heard_latest (B : Bystanders b) {σ₀ σ : Stage ω} {os : Outputs}
    (hunheard : ∀ n, σ₀.host.bound n = []) (hforeign : ∀ n, B.foreign σ₀.world n → n.index < σ₀.host.count)
    (hrun : Run (.lasting e) b (Passing B.foreign) σ₀ os σ) (n : NodeId) (event : String)
    (hattached : σ.host.isAttached n = true) :
    (σ.host.heard n event).Perm ((os.words σ.instances).filterMap (e.calls n event)) := by
  have hstart : Heeded B σ₀ (tiesOf []) :=
    ⟨hforeign, by simp [tiesOf], by simp [tiesOf], List.nodup_nil, fun _ => False, by simp [Lost], fun n _ => by
      rw [hunheard n]
      exact .nil⟩
  have hmove {σ posts σ' posts'} (hmove : Move (.lasting e) b σ posts σ' posts') (h : Heeded B σ (tiesOf posts)) :
      Heeded B σ' (tiesOf posts') := hmove.heeded (fun _ => by simp [Regime.judge_of_whole, Regime.lasting]) h
  have helements {σ : Stage ω} {posts : List Post} (h : Heeded B σ (tiesOf posts)) (n : NodeId)
      (hn : n ∈ elementsOf posts) : n.index < σ.host.count := by
    obtain ⟨post, hpost, hmark⟩ := mem_elementsOf.mp hn
    exact (h.elements post.node n (mem_tiesOf_element.mpr ⟨post, hpost, rfl, hmark⟩)).1.lt
  obtain ⟨cs, posts, hsustained⟩ := hrun.sustained hmove helements B.keepsNodes (fun _ h => h)
    (fun hpasses => hpasses.spares.count) (fun hpasses h => h.passes hpasses) hstart
  have hheeded : Heeded B σ (tiesOf posts) := hsustained.kept
  refine (hheeded.heard hattached event).trans (.of_eq ?_)
  rw [hsustained.retained.words_eq]
  exact heard_tiesOf (fun post hpost => hsustained.retained.posted.suits post hpost e rfl)
    (fun q id lexem hmem => (hheeded.listeners q id lexem hmem).2.2) n event

/-- A click on the parent, and one on a paragraph inside, with one handler and something to call it with. -/
def Sentence.clicks (i : Identity) (extra : String) : Sentence :=
  let click := ("on", [.str "click", .handler i, .list i [.str extra]])
  .plain [click, ("tag", [.str "p", .sentence i (.plain [click])])]

/-- Outputs of two sentences of clicks, and what a click comes to on a host. -/
def Rendered.clicked (r r' : Rendered) (h : Host) : Bool :=
  match r.sentence.lexems, r.slots, r'.sentence.lexems, r'.slots, h.heard ⟨1⟩ "click" with
  | [_, _], [.listener _, .element _ [⟨_, ⟨_, _, [_]⟩, [.listener _]⟩]],
    [⟨_, _, _ :: _⟩, ⟨_, _, _ :: _⟩], [.listener _, .element _ [⟨_, ⟨_, _, [⟨_, _, _ :: _⟩]⟩, [.listener _]⟩]],
    [⟨⟨2⟩, [.str "b"]⟩] => h.isAttached ⟨1⟩
  | _, _, _, _, _ => false

/-- Another handler takes over both. -/
theorem heard_latest_clicks : ∃ r σ₁ r' σ₂,
    Engine.plain.render Behaviour.inert Host.root (.clicks ⟨1⟩ "a") ⟨.new, #[], ()⟩ = .ok r σ₁ ∧
    Engine.plain.diff Behaviour.inert Host.root (.clicks ⟨2⟩ "b") r σ₁ = .ok r' σ₂ ∧
    (σ₂.host.heard ⟨1⟩ "click" = [⟨⟨2⟩, [.str "b"]⟩]) ∧ σ₂.host.isAttached ⟨1⟩ = true ∧
    ∀ n event, σ₂.host.isAttached n = true → (σ₂.host.heard n event).Perm
      ((Outputs.words σ₂.instances [(Host.root, r')]).filterMap (Engine.plain.calls n event)) := by
  have hcheck : Pass.check (Engine.plain.render Behaviour.inert Host.root (.clicks ⟨1⟩ "a")) ⟨.new, #[], ()⟩
      (fun r σ₁ => Pass.check (Engine.plain.diff Behaviour.inert Host.root (.clicks ⟨2⟩ "b") r) σ₁ fun r' σ₂ =>
        r.clicked r' σ₂.host) = true := by rfl
  obtain ⟨r, σ₁, hrender, hcheck⟩ := exists_of_check hcheck
  obtain ⟨r', σ₂, hdiff, hcheck⟩ := exists_of_check hcheck
  unfold Rendered.clicked at hcheck
  split at hcheck
  next hwords hslots hwords' hslots' hheard =>
    let B : Bystanders Behaviour.inert :=
      { foreign := fun _ _ => False
        acts := fun _ _ h => h
        hooks := by
          rintro h w h' w' (⟨⟨⟩⟩ | ⟨⟨⟩⟩ | ⟨⟨⟩⟩) <;> exact ⟨.refl _ _, fun _ => .inl⟩ }
    have hadmits : (Regime.lasting .plain).Admits .plain := fun _ => Option.some.inj
    have hfirst : Run (.lasting .plain) Behaviour.inert (Passing B.foreign) ⟨.new, #[], ()⟩
        ([] ++ (Host.root, r) :: []) σ₁ := .render .start hadmits (by decide) hrender fun _ _ => trivial
    have hrun : Run (.lasting .plain) Behaviour.inert (Passing B.foreign) ⟨.new, #[], ()⟩
        ([] ++ (Host.root, r') :: []) σ₂ := by
      refine .diff hfirst hadmits hdiff ?_ fun _ _ => trivial
      rintro e ⟨⟩
      rw [hwords, hslots, hwords', hslots']
      refine .cons (by rintro ⟨⟩) (fun _ => .gone) ?_
        (.cons (by rintro ⟨⟩) (fun _ => .cons (by rintro ⟨⟩) (fun _ => .gone) ?_ .gone) ?_ .gone) <;> rintro _ _ _ _ _ ⟨⟩
    exact ⟨r, σ₁, r', σ₂, hrender, hdiff, hheard, hcheck, heard_latest B Host.bound_new (fun _ h => h.elim) hrun⟩
  next => cases hcheck

end Parlance
