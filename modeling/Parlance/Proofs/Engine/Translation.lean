import Parlance.Proofs.Engine.Dialects
import Parlance.Proofs.Lexicon.Translation

/-! Sentences that are translated to the atomic level before they are rendered. Translation finds a word from the
lexicon that translates, and an engine finds it from the namespace of its lexem. Where no word is redefined along the
chain both find the same, and translation makes no difference to the host. A dialect that redefines a word gives
its own meaning to the lexems of its ancestors. -/

namespace Parlance

/-- Translates a sentence to the atomic level and renders what comes of it under a parent. -/
def Engine.replay (e : Engine) (ctx : Context) (d : Lexicon) (parent : NodeId) (s : Sentence) :
    Pass World Rendered := do
  let t ← (Attempt.ofAct (d.translate (Script.interpreter ctx) .atomic s)).onStage
  e.render (Script.behaviour ctx) parent t

theorem translate_spelt {ctx : Context} {d : Lexicon} (hd : d.Expandable) {s : Sentence}
    (hnative : lexemsNative d s.lexems = true) (hspoken : lexemsSpoken s.lexems = true) :
    Yields (· = .exhausted) (fun t => LexemsSpelt ctx d s.lexems t.lexems)
      (d.translate (Script.interpreter ctx) .atomic s) := by
  rcases s with ⟨l, level, lexems⟩
  rw [Lexicon.translate]
  exact (translateLexems_spelt hd lexems rfl rfl hnative hspoken).mono fun _ h => h.lexems

/-- A sentence of words of an expandable chain, translated to the atomic level and rendered, comes to what the sentence
itself comes to: success or the same error, after the same calls of the host. -/
theorem translation_renders_alike (ctx : Context) {d : Lexicon} (hd : d.Expandable) {e : Engine} (he : e.Interprets d)
    {s : Sentence} (hnative : lexemsNative d s.lexems = true) (hspoken : lexemsSpoken s.lexems = true) (parent : NodeId)
    {σ σ' : Stage World} (hhost : σ.host = σ'.host)
    (hlazy : ¬ TooDeep (e.render (Script.behaviour ctx) parent s σ)) (heager : ¬ TooDeep (e.replay ctx d parent s σ')) :
    SameOutcome (e.render (Script.behaviour ctx) parent s σ) (e.replay ctx d parent s σ') := by
  have htranslated : ActsAgree (fun s t => LexemsSpelt ctx d s.lexems t.lexems) (pure s)
      (d.translate (Script.interpreter ctx) .atomic s) := (translate_spelt hd hnative hspoken).agrees
  have hagrees : Agrees True (· = Halt.trouble .exhausted) (· = Halt.trouble .exhausted) Stage.SameHost
      (fun _ _ => True)
      ((Attempt.ofAct (pure s) : Attempt PassError World Sentence).onStage >>= e.render (Script.behaviour ctx) parent)
      (e.replay ctx d parent s) :=
    (Attempt.onStage_agrees htranslated.ofAct).bind fun s t hs => by
      have hphrase : Engine.PhraseSpelt ctx d (.new s) (.new t) := hs
      exact (Engine.renderWithin_spelt hd he Engine.depthLimit (Nat.le_refl _) rfl).1 hphrase
  exact SameOutcome.of_agrees hagrees hhost hlazy heager

namespace Html

/-- Cards of both lexicons in each other. -/
def mixedCards : Sentence :=
  let inner : Sentence := ⟨cards, .atomic, [⟨"cards", "card", [.str "Inner", .list ⟨1⟩ [.str "first"]]⟩]⟩
  let middle : Sentence := ⟨lexicon, .firstLevel, [⟨"html", "section", [.sentence ⟨2⟩ inner]⟩]⟩
  ⟨cards, .firstLevel, [⟨"cards", "card", [.str "Outer", .sentence ⟨3⟩ middle]⟩, ⟨"html", "text", [.str "last"]⟩]⟩

/-- A dialect that says every text aloud. -/
def aloud : Lexicon :=
  (Lexicon.new "aloud" (some lexicon)).addCompounds
    [("text", body [.append "html" "text" [.join [.arg 0, .str "!"]]])]

end Html

/-- Mixed cards make the same calls whether they are translated or not. -/
theorem translation_renders_alike_cards :
    SameOutcome
      (((Engine.new Config.default).addLexicon Html.cards).render (Script.behaviour .html) Host.root Html.mixedCards
        ⟨Host.new, #[], World.new⟩)
      (((Engine.new Config.default).addLexicon Html.cards).replay .html Html.cards Host.root Html.mixedCards
        ⟨Host.new, #[], World.new⟩) :=
  have hnative : lexemsNative Html.cards Html.mixedCards.lexems = true := by
    rw [Html.mixedCards, Html.cards, Html.lexicon_eq]
    decide
  have hruns : succeededAfter 18 (((Engine.new Config.default).addLexicon Html.cards).render (Script.behaviour .html)
      Host.root Html.mixedCards ⟨Host.new, #[], World.new⟩) = true ∧
      succeededAfter 18 (((Engine.new Config.default).addLexicon Html.cards).replay .html Html.cards Host.root
        Html.mixedCards ⟨Host.new, #[], World.new⟩) = true := by
    rw [Html.mixedCards, Html.cards, Html.lexicon_eq]
    decide +kernel
  translation_renders_alike .html Html.cards_expandable (Engine.interprets_new Html.cards_expandable Config.default)
    hnative (by decide) Host.root rfl (not_tooDeep hruns.1) (not_tooDeep hruns.2)

/-- A text of the built-in vocabulary is a word of its own for a dialect that redefines texts. -/
theorem translation_differs :
    textsAfter (((Engine.new Config.default).addLexicon Html.aloud).render (Script.behaviour .html) Host.root
        ⟨Html.aloud, .firstLevel, [⟨"html", "text", [.str "hello"]⟩]⟩ ⟨Host.new, #[], World.new⟩) = [.text "hello"] ∧
      textsAfter (((Engine.new Config.default).addLexicon Html.aloud).replay .html Html.aloud Host.root
        ⟨Html.aloud, .firstLevel, [⟨"html", "text", [.str "hello"]⟩]⟩ ⟨Host.new, #[], World.new⟩) =
          [.text "hello!"] := by
  rw [Html.aloud, Html.lexicon_eq]
  decide

end Parlance
