import Parlance.Proofs.Engine.Expansion
import Parlance.Host.Tree

/-! Compounds that a dialect has inherited. Called on the first level, such a word becomes a lexem of the lexicon that
defines it, and there it is developed: the words that its body calls mean what they mean in that lexicon, whatever
the dialect has made of them. Called on the atomic level, its body runs at once on a sentence of the dialect, and
the words that it calls are the dialect's. -/

namespace Parlance

/-- Calls a word on the empty sentence of an initializer and renders what comes of it under a parent. -/
def Engine.call (e : Engine) (ctx : Context) (h : Initializer) (parent : NodeId) (name : String) (args : List Arg) :
    Attempt SessionError (Stage World) Rendered := do
  let s ← ((h.empty.tryCall (Script.interpreter ctx) name args).mapError (.script ∘ .vocabulary)).onStage
  Attempt.mapError SessionError.pass (e.render (Script.behaviour ctx) parent s)

variable {ctx : Context} {p d : Lexicon} {name : String} {args : List Arg}

/-- Of a result that is there from the start no more is asked than what is asked of it in the end. -/
theorem Agrees.replace {ε σ α β γ : Type} {fails : Prop} {stop stop' : ε → Prop} {S : σ → σ → Prop} {Q : α → γ → Prop}
    {Q' : β → γ → Prop} {x : α} {y : β} {m : EStateM ε σ γ} (h : Agrees fails stop stop' S Q (Pure.pure x) m)
    (hreplace : ∀ z, Q x z → Q' y z) : Agrees fails stop stop' S Q' (Pure.pure y) m := by
  intro s s' hs
  have hends := h s s' hs
  change EndAlike _ _ _ _ _ (.ok x s) (m s') at hends
  change EndAlike _ _ _ _ _ (.ok y s) (m s')
  generalize m s' = r at hends
  cases hends with
  | ok hresult hstate => exact .ok (hreplace _ hresult) hstate
  | stopped' hstop => exact .stopped' hstop

/-- Attempts that have ended alike have ended alike for their hosts, if neither has gone too deep. -/
theorem SameOutcome.of_agrees {ε α : Type} {Q : α → α → Prop} {m m' : Attempt ε (Stage World) α}
    (h : Agrees True (· = Halt.trouble .exhausted) (· = Halt.trouble .exhausted) Stage.SameHost Q m m')
    {σ σ' : Stage World} (hhost : σ.host = σ'.host) (hdeep : ¬ TooDeep (m σ)) (hdeep' : ¬ TooDeep (m' σ')) :
    SameOutcome (m σ) (m' σ') := by
  have hends := h σ σ' (congrArg Host.deaf hhost)
  generalize m σ = r, m' σ' = r' at hends hdeep hdeep'
  have hshown : ∀ {h h' : Host}, h.deaf = h'.deaf → h.mutations = h'.mutations ∧ h.nodes = h'.nodes :=
    fun {h h'} heq => by
      change h.deaf.mutations = h'.deaf.mutations ∧ h.deaf.nodes = h'.deaf.nodes
      rw [heq]
      exact ⟨rfl, rfl⟩
  cases hends with
  | ok _ hstate => exact .ok (hshown hstate).1 (hshown hstate).2
  | error _ hstate => exact .error (hshown hstate).1 (hshown hstate).2
  | stopped hstop =>
      subst hstop
      exact absurd ⟨_, rfl⟩ hdeep
  | stopped' hstop =>
      subst hstop
      exact absurd ⟨_, rfl⟩ hdeep'

/-- An engine that is made for a dialect of call-only lexicons interprets every lexicon that the dialect inherits from. -/
theorem Engine.interprets_ancestor (hnames : (d.chain.map Lexicon.name).Nodup)
    (hbodies : ∀ owner ∈ d.chain, owner.CallOnly) (hp : p ∈ d.chain) (config : Config) :
    ((Engine.new config).addLexicon d).Interprets p := by
  have hget : ∀ space, ((Engine.new config).addLexicon d).targets.get? space =
      d.chain.find? fun l => l.name = space := fun space => Registry.get?_registerAll space d.chain Registry.empty
  refine ⟨fun owner howner => ?_, fun {space l} hl owner howner => ?_⟩
  · have hmem := Lexicon.mem_chain_trans d hp howner
    rw [hget]
    have hsome : (d.chain.find? fun l => l.name = owner.name).isSome = true :=
      List.find?_isSome.mpr ⟨owner, hmem, decide_eq_true rfl⟩
    obtain ⟨found, hfound⟩ := Option.isSome_iff_exists.mp hsome
    have hname : found.name = owner.name := by simpa using List.find?_some hfound
    rw [hfound, List.inj_on_of_nodup_map hnames (List.mem_of_find?_eq_some hfound) hmem hname]
  · rw [hget] at hl
    exact hbodies owner (Lexicon.mem_chain_trans d (List.mem_of_find?_eq_some hl) howner)

/-- A compound that is inherited comes on the first level to what it comes to in the lexicon that it is inherited
from, and the atomic level of that lexicon spells it out. -/
theorem tryCall_inherited (hp : p.Expandable) (hcompound : p.develops name = true)
    (hinherited : d.resolve name = p.resolve name) (hargs : argsSpoken args = true) :
    AttemptsAgree True (fun s s' => LexemsSpelt ctx p s.lexems s'.lexems)
      ((Sentence.empty d .firstLevel).tryCall (Script.interpreter ctx) name args)
      ((Sentence.empty p .atomic).tryCall (Script.interpreter ctx) name args) := by
  obtain ⟨owner, body, hresolve⟩ : ∃ owner body, p.resolve name = some (owner, .compound body) := by
    rw [Lexicon.develops, Lexicon.kindOf, decide_eq_true_eq, Option.map_eq_some_iff] at hcompound
    obtain ⟨⟨owner, word⟩, hresolve, hkind⟩ := hcompound
    rcases word with _ | body | _
    · cases hkind
    · exact ⟨owner, body, hresolve⟩
    · cases hkind
  obtain ⟨howner, hword⟩ := Lexicon.resolve_eq_some hresolve
  have hplain := (hp.bodies owner howner).plain hword rfl
  have hspelt : ActsAgree (Lengthened ctx p (Sentence.empty p .firstLevel) (Sentence.empty p .atomic))
      (pure ((Sentence.empty p .firstLevel).append owner.name name args))
      ((Script.interpreter ctx).run body ⟨owner, .atomic⟩ (Sentence.empty p .atomic) args) :=
    compound_spelt (Script.interpreter_spelt ctx hp) rfl (fun _ hcalled =>
      hp.concurs_inherited p.mem_chain_self howner (known_of_wordsCalled hplain hcalled)) howner hword hplain
      (args_spelt_self args hargs)
  have hdialect : ActsAgree (fun s s' => LexemsSpelt ctx p s.lexems s'.lexems)
      (pure ((Sentence.empty d .firstLevel).append owner.name name args))
      ((Script.interpreter ctx).run body ⟨owner, .atomic⟩ (Sentence.empty p .atomic) args) :=
    Agrees.replace hspelt fun _ h => h.lexems
  unfold Sentence.tryCall
  rw [Sentence.empty, Sentence.empty, hinherited, hresolve]
  exact hdialect.ofAct

/-- An inherited compound that is called on the first level of a dialect is rendered as on the atomic level of the
lexicon that it is inherited from. What the dialect defines anew makes no difference. -/
theorem inherited_as_in_parent (ctx : Context) (hp : p.Expandable) {e : Engine} (he : e.Interprets p)
    (hcompound : p.develops name = true) (hinherited : d.resolve name = p.resolve name)
    (hargs : argsSpoken args = true) (parent : NodeId) {σ σ' : Stage World} (hhost : σ.host = σ'.host)
    (hlazy : ¬ TooDeep (e.call ctx ⟨d, .firstLevel⟩ parent name args σ))
    (heager : ¬ TooDeep (e.call ctx ⟨p, .atomic⟩ parent name args σ')) :
    SameOutcome (e.call ctx ⟨d, .firstLevel⟩ parent name args σ) (e.call ctx ⟨p, .atomic⟩ parent name args σ') := by
  have htried : AttemptsAgree True (fun s s' => LexemsSpelt ctx p s.lexems s'.lexems)
      ((Sentence.empty d .firstLevel).tryCall (Script.interpreter ctx) name args)
      ((Sentence.empty p .atomic).tryCall (Script.interpreter ctx) name args) :=
    tryCall_inherited hp hcompound hinherited hargs
  have hcall := htried.mapError (SessionError.script ∘ .vocabulary)
  refine SameOutcome.of_agrees (Q := fun _ _ => True) ((Attempt.onStage_agrees hcall).bind fun s s' hs => ?_) hhost
    hlazy heager
  have hphrase : Engine.PhraseSpelt ctx p (.new s) (.new s') := hs
  exact ((Engine.renderWithin_spelt hp he Engine.depthLimit (Nat.le_refl _) rfl).1 hphrase).mapError _

namespace Html

/-- A greeting, and a word that greets. -/
def greetings : Lexicon :=
  (Lexicon.new "greetings" (some lexicon)).addCompounds
    [("hello", body [.word "text" [.str "Hello"]]), ("greet", body [.word "hello" []])]

/-- A dialect with another greeting. -/
def french : Lexicon :=
  (Lexicon.new "french" (some greetings)).addCompounds [("hello", body [.word "text" [.str "Bonjour"]])]

theorem greetings_expandable : greetings.Expandable := by
  refine lexicon_expandable.dialect (by decide) ?_ ?_ <;> rw [hasWord_eq] <;> decide

theorem greetings_interpreted : ((Engine.new Config.default).addLexicon french).Interprets greetings := by
  have hchain : french.chain = french :: greetings.chain := Lexicon.chain_dialect
  have hfrench : french.CallOnly := by
    refine Lexicon.callOnly_dialect ?_
    rw [greetings, Lexicon.hasWord_dialect, hasWord_eq]
    decide
  refine Engine.interprets_ancestor (by decide) ?_ ?_ _ <;> rw [hchain]
  · exact List.forall_mem_cons.mpr ⟨hfrench, greetings_expandable.bodies⟩
  · exact List.mem_cons_of_mem _ greetings.mem_chain_self

end Html

/-- In a dialect with another greeting, the first level greets as the atomic level without it. -/
theorem inherited_as_in_parent_greeting :
    SameOutcome
      (((Engine.new Config.default).addLexicon Html.french).call .html ⟨Html.french, .firstLevel⟩ Host.root "greet" []
        ⟨Host.new, #[], World.new⟩)
      (((Engine.new Config.default).addLexicon Html.french).call .html ⟨Html.greetings, .atomic⟩ Host.root "greet" []
        ⟨Host.new, #[], World.new⟩) :=
  have hinherited : Html.french.resolve "greet" = Html.greetings.resolve "greet" := rfl
  have hruns : ∀ h ∈ [Initializer.mk Html.french .firstLevel, ⟨Html.greetings, .atomic⟩], succeededAfter 2
      (((Engine.new Config.default).addLexicon Html.french).call .html h Host.root "greet" []
        ⟨Host.new, #[], World.new⟩) = true := by
    rw [Html.french, Html.greetings, Html.lexicon_eq]
    decide
  inherited_as_in_parent .html Html.greetings_expandable Html.greetings_interpreted (by decide) hinherited rfl
    Host.root rfl (not_tooDeep (hruns _ (by simp))) (not_tooDeep (hruns _ (by simp)))

/-- The texts under the root after a call that has succeeded. -/
def textsAfter {ε α : Type} : EStateM.Result ε (Stage World) α → List NodeKind
  | .ok _ σ => (σ.host.children Host.root).map fun n => (σ.host.content n).kind
  | .error _ _ => []

/-- A word that a dialect has redefined means one thing on the atomic level and another on the first. -/
theorem levels_differ :
    textsAfter (((Engine.new Config.default).addLexicon Html.french).call .html ⟨Html.french, .atomic⟩ Host.root "greet" []
        ⟨Host.new, #[], World.new⟩) = [.text "Bonjour"] ∧
      textsAfter (((Engine.new Config.default).addLexicon Html.french).call .html ⟨Html.french, .firstLevel⟩ Host.root
        "greet" [] ⟨Host.new, #[], World.new⟩) = [.text "Hello"] := by
  rw [Html.french, Html.greetings, Html.lexicon_eq]
  decide

end Parlance
