import Parlance.Proofs.Html.Documents

/-! Documents that a registry with nothing but the built-in vocabulary accepts. From a document one can tell how deep a
pass goes at most for its sentence. Whoever allows for that, and renders the first of some documents and diffs every
next one, comes to the end of them or to a first mistake, and only nodes that are there have been named on the way. -/

namespace Parlance

open Engine Script

set_option linter.unusedSectionVars false

def ArgDoc.count : ArgDoc → Nat
  | .list items => items.length
  | _ => 0

mutual

/-- How deep a pass goes at most for the sentences of an argument. -/
def ArgDoc.reach : ArgDoc → Nat
  | .sentence doc => doc.reach
  | .list items => reachOfArgs items
  | _ => 0

def reachOfArgs : List ArgDoc → Nat
  | [] => 0
  | a :: as => max a.reach (reachOfArgs as)

/-- A word needs at most five levels more than its arguments, and a reference one for every argument that it packs. -/
def reachOfLexems : List LexemDoc → Nat
  | [] => 0
  | ⟨_, _, args⟩ :: lexems => max (max 1 (reachOfArgs args) + 5 + (args.getD 1 .null).count) (reachOfLexems lexems)

def SentenceDoc.reach : SentenceDoc → Nat
  | ⟨_, _, lexems⟩ => reachOfLexems lexems + 1

end

namespace Html

/-- A registry with nothing but the built-in vocabulary. -/
def registry : Registry := Registry.empty.register lexicon

theorem get_registry {name : String} {found : Lexicon} (h : registry.get? name = some found) :
    name = space ∧ found = lexicon := by
  rw [registry, Registry.register, Registry.get?, Entries.get?_put, name_lexicon] at h
  split at h
  next heq => exact ⟨heq, (Option.some.inj h).symm⟩
  next => cases h

theorem second_count {as : List Arg} {docs : List ArgDoc}
    (hcounts : as.map (fun a => a.items.length) = docs.map ArgDoc.count) :
    (argAt as 1).items.length = (docs.getD 1 .null).count := by
  have hsecond := congrArg (fun counts => counts.getD 1 0) hcounts
  simp only [List.getD_eq_getElem?_getD, List.getElem?_map] at hsecond
  rw [argAt, List.getD_eq_getElem?_getD, List.getD_eq_getElem?_getD]
  cases ha : as[1]? <;> cases hdoc : docs[1]? <;> rw [ha, hdoc] at hsecond <;> exact hsecond

section Accepted

variable {ω : Type} {i : Interpreter ω} {ctx : Context} {b b' : Behaviour World} {e : Engine}
variable (he : Interprets e) (hb : b.toInterpreter = interpreter ctx) (hb' : b'.toInterpreter = interpreter ctx)
include he hb hb'

/-- Whatever word of the vocabulary a lexem has, it comes to an end. -/
theorem accepted_ends {n hops : Nat} (hn : 1 ≤ n) {name : String} {args : List Arg} (hname : lexicon.hasWord name = true)
    (hargs : ∀ a ∈ args, a.Documented (SentenceEnds b b' e n)) (hhops : (argAt args 1).items.length ≤ hops) :
    LexemEnds b b' e (n + 5 + hops) ⟨space, name, args⟩ := by
  by_cases hswitch : name = "switchUse"
  · subst hswitch
    exact switchUse_ends he hb hb' hn hops hhops hargs
  · obtain ⟨word, hword⟩ := word_of_hasWord hname
    exact (word_ends he hb hb' hn 3 hword hswitch (layer_le name) hargs).mono (by omega)

mutual

theorem toArg_ends : ∀ (doc : ArgDoc) {a : Arg} {w w' : ω}, doc.toArg i registry w = .ok a w' →
    a.Documented (SentenceEnds b b' e doc.reach) ∧ a.items.length = doc.count
  | .null, _, _, _, h | .bool _, _, _, _, h | .number _, _, _, _, h | .str _, _, _, _, h => by
      obtain ⟨rfl, -⟩ := Act.pure_eq_ok.mp h
      exact ⟨trivial, rfl⟩
  | .sentence doc, _, _, _, h => by
      obtain ⟨s, _, hs, hrest⟩ := Act.bind_eq_ok.mp h
      obtain ⟨identity, _, -, hlast⟩ := Act.bind_eq_ok.mp hrest
      obtain ⟨rfl, -⟩ := Act.pure_eq_ok.mp hlast
      exact ⟨toSentence_ends doc hs, rfl⟩
  | .list items, _, _, _, h => by
      obtain ⟨as, _, has, hrest⟩ := Act.bind_eq_ok.mp h
      obtain ⟨identity, _, -, hlast⟩ := Act.bind_eq_ok.mp hrest
      obtain ⟨rfl, -⟩ := Act.pure_eq_ok.mp hlast
      obtain ⟨hdocumented, hcounts⟩ := toArgs_end items has
      refine ⟨argsDocumented_iff.mpr hdocumented, ?_⟩
      have hlength := congrArg List.length hcounts
      rwa [List.length_map, List.length_map] at hlength

theorem toArgs_end : ∀ (docs : List ArgDoc) {as : List Arg} {w w' : ω}, docsToArgs i registry docs w = .ok as w' →
    (∀ a ∈ as, a.Documented (SentenceEnds b b' e (reachOfArgs docs))) ∧
      as.map (fun a => a.items.length) = docs.map ArgDoc.count
  | [], _, _, _, h => by
      obtain ⟨rfl, -⟩ := Act.pure_eq_ok.mp h
      exact ⟨by simp, rfl⟩
  | doc :: docs, _, _, _, h => by
      obtain ⟨a, _, ha, hrest⟩ := Act.bind_eq_ok.mp h
      obtain ⟨as, _, has, hlast⟩ := Act.bind_eq_ok.mp hrest
      obtain ⟨rfl, -⟩ := Act.pure_eq_ok.mp hlast
      obtain ⟨hfirst, hcount⟩ := toArg_ends doc ha
      obtain ⟨hothers, hcounts⟩ := toArgs_end docs has
      refine ⟨List.forall_mem_cons.mpr ⟨hfirst.mono fun s hs => hs.mono (Nat.le_max_left _ _), fun a' ha' => ?_⟩, ?_⟩
      · exact (hothers a' ha').mono fun s hs => hs.mono (Nat.le_max_right _ _)
      · rw [List.map_cons, List.map_cons, hcount, hcounts]

theorem toLexems_end : ∀ (docs : List LexemDoc) {lexems : List Lexem} {w w' : ω},
    docsToLexems i registry docs w = .ok lexems w' → ∀ lexem ∈ lexems, LexemEnds b b' e (reachOfLexems docs) lexem
  | [], _, _, _, h => by
      obtain ⟨rfl, -⟩ := Act.pure_eq_ok.mp h
      simp
  | ⟨space', name, args⟩ :: docs, _, _, _, h => by
      rw [docsToLexems] at h
      cases hfound : registry.get? space' with
      | none =>
          rw [hfound] at h
          cases h
      | some found =>
          rw [hfound] at h
          obtain ⟨rfl, rfl⟩ := get_registry hfound
          dsimp only at h
          by_cases hname : lexicon.hasWord name = true
          · rw [if_pos hname] at h
            obtain ⟨as, _, has, hrest⟩ := Act.bind_eq_ok.mp h
            obtain ⟨lexems, _, hlexems, hlast⟩ := Act.bind_eq_ok.mp hrest
            obtain ⟨rfl, -⟩ := Act.pure_eq_ok.mp hlast
            obtain ⟨hdocumented, hcounts⟩ := toArgs_end args has
            have hargs : ∀ a ∈ as, a.Documented (SentenceEnds b b' e (max 1 (reachOfArgs args))) :=
              fun a ha => (hdocumented a ha).mono fun s hs => hs.mono (Nat.le_max_right _ _)
            have hlexem := accepted_ends he hb hb' (Nat.le_max_left _ _) hname hargs (Nat.le_of_eq (second_count hcounts))
            refine List.forall_mem_cons.mpr ⟨hlexem.mono (Nat.le_max_left _ _), fun lexem hmem => ?_⟩
            exact (toLexems_end docs hlexems lexem hmem).mono (Nat.le_max_right _ _)
          · rw [if_neg hname] at h
            cases h

/-- A sentence that has been read comes to an end at the depth that its document tells. -/
theorem toSentence_ends : ∀ (doc : SentenceDoc) {s : Sentence} {w w' : ω}, doc.toSentence i registry w = .ok s w' →
    SentenceEnds b b' e doc.reach s
  | ⟨lexiconName, level, docs⟩, _, _, _, h => by
      rw [SentenceDoc.toSentence] at h
      cases hfound : registry.get? lexiconName with
      | none =>
          rw [hfound] at h
          cases h
      | some found =>
          rw [hfound] at h
          obtain ⟨lexems, _, hlexems, hlast⟩ := Act.bind_eq_ok.mp h
          obtain ⟨rfl, -⟩ := Act.pure_eq_ok.mp hlast
          exact sentence_ends (toLexems_end docs hlexems)

end

end Accepted

end Html

namespace Engine

/-- Puts an output on a host as far as a depth allows: there is one before that it is compared with, or there is none. -/
def outputWithin {ω : Type} (b : Behaviour ω) (depth : Nat) (e : Engine) (parent : NodeId) (s : Sentence) :
    Option Rendered → Pass ω Rendered
  | some previous => diffWithin b depth e (Cursor.root parent) (.new s) previous
  | none => renderWithin b depth e (Cursor.root parent) (.new s)

theorem output_eq {ω : Type} (b : Behaviour ω) (e : Engine) (parent : NodeId) (s : Sentence) (previous : Option Rendered) :
    e.output b parent s previous = outputWithin b depthLimit e parent s previous := by
  cases previous <;> rfl

/-- Puts the outputs of some sentences on a host, one in place of the other, until there is an error. -/
def outputsWithin {ω : Type} (b : Behaviour ω) (depth : Nat) (e : Engine) (parent : NodeId) :
    List Sentence → Option Rendered → Pass ω (Option Rendered)
  | [], previous => pure previous
  | s :: ss, previous => do
      let r ← outputWithin b depth e parent s previous
      outputsWithin b depth e parent ss (some r)

variable {e : Engine} {parent : NodeId} {ss : List Sentence} {previous : Option Rendered}

/-- Sentences that come to an end do so one after the other. -/
theorem outputs_fare {b b' : Behaviour World} {n depth depth' : Nat} (hdepth : n ≤ depth) (hdepth' : n ≤ depth')
    (hss : ∀ s ∈ ss, Html.SentenceEnds b b' e n s) (hprevious : ∀ r ∈ previous, Bare r.slots) :
    Fares (fun _ => True) (outputsWithin b depth e parent ss previous) (outputsWithin b' depth' e parent ss previous) := by
  induction ss generalizing previous with
  | nil => exact .pure trivial
  | cons s ss ih =>
      have hends := hss s List.mem_cons_self depth depth' hdepth hdepth'
      have hone : Fares (fun r => Bare r.slots) (outputWithin b depth e parent s previous)
          (outputWithin b' depth' e parent s previous) := by
        cases previous with
        | none => exact hends.render _ none
        | some r => exact hends.diff _ none r (hprevious r rfl)
      exact hone.bind fun r hr => ih (fun s hs => hss s (List.mem_cons_of_mem _ hs)) (by rintro _ ⟨⟩; exact hr)

/-- A warden who lets nodes be taken off their parents looks after all of them. -/
theorem outputs_guards {ω : Type} {b : Behaviour ω} {W : Warden} (hdrops : W.Drops) (hhooks : W.Hooks b) (depth : Nat)
    {σ₀ : Stage ω} (hparent : parent.index < σ₀.host.count)
    (hprevious : ∀ r ∈ previous, W.Own σ₀.host parent r.slots) :
    W.Guards True σ₀ (outputsWithin b depth e parent ss previous) fun _ _ => True := by
  induction ss generalizing previous σ₀ with
  | nil => exact .pure fun _ _ => trivial
  | cons s ss ih =>
      have hroot : (Cursor.root parent).Within σ₀.host := .root hparent
      have hone : W.Guards True σ₀ (outputWithin b depth e parent s previous) fun r σ => W.Own σ.host parent r.slots := by
        cases previous with
        | none => exact renderWithin_guards hhooks depth e σ₀ (.root parent) (.new s) hroot
        | some r => exact diffWithin_guards hdrops hhooks depth σ₀ e (.root parent) (.new s) r hroot (hprevious r rfl)
      exact hone.bind fun r σ₁ honward hr => ih (honward.count hparent) (by rintro _ ⟨⟩; exact hr)

end Engine

/-- A call that names only nodes that are there. -/
def Ledger.Inside (L : Ledger) (m : Mutation) : Prop := ∀ n ∈ m.named, n.index < L.count

/-- The same behaviour with hooks that do nothing. -/
def Behaviour.unhooked {ω : Type} (b : Behaviour ω) : Behaviour ω :=
  { b with
    hookRender := fun _ _ _ h => pure h
    hookDiff := fun _ _ _ _ h => pure h
    hookRemove := fun _ _ _ h => pure h }

theorem Warden.hooks_unhooked {ω : Type} (W : Warden) (b : Behaviour ω) : W.Hooks b.unhooked := by
  intro h w h' w' hhook _
  have hsame : h' = h := by cases hhook with | _ hcall => exact (Act.pure_eq_ok.mp hcall).1.symm
  rw [hsame]
  exact W.refl h

/-- Accepted documents come to an end: rendering the first and diffing every next one succeeds or stops at a mistake in
a document, at no limit and with nothing broken off, and it is the same however much deeper one may go. Every call that
the host receives names nodes that are there. -/
theorem documents_end {ω : Type} (ctx : Context) {b : Behaviour World} (hb : b.toInterpreter = interpreter ctx) {e : Engine}
    (he : Html.Interprets e) {i : Interpreter ω} {docs : List SentenceDoc} {ss : List Sentence}
    (haccepted : List.Forall₂ (fun doc s => ∃ w w', doc.toSentence i Html.registry w = .ok s w') docs ss) {n : Nat}
    (hn : ∀ doc ∈ docs, doc.reach ≤ n) (parent : NodeId) :
    (∀ depth, n ≤ depth → outputsWithin b depth e parent ss none = outputsWithin b n e parent ss none) ∧
    ∀ σ : Stage World, parent.index < σ.host.count → ∃ σ', σ.host.Receives Ledger.Inside σ'.host ∧
      ((∃ r, outputsWithin b n e parent ss none σ = .ok r σ') ∨
        ∃ err, outputsWithin b n e parent ss none σ = .error (.error err) σ' ∧ ¬ err.Internal) := by
  have hends : ∀ {b' : Behaviour World}, b'.toInterpreter = interpreter ctx → ∀ s ∈ ss, Html.SentenceEnds b b' e n s := by
    intro b' hb' s hs
    obtain ⟨k, hk, rfl⟩ := List.getElem_of_mem hs
    have hk' : k < docs.length := haccepted.length_eq ▸ hk
    obtain ⟨w, w', hread⟩ := haccepted.get hk' hk
    exact (Html.toSentence_ends he hb hb' _ hread).mono (hn _ (List.getElem_mem hk'))
  have hfares : ∀ {b' : Behaviour World}, b'.toInterpreter = interpreter ctx → ∀ depth', n ≤ depth' →
      Fares (fun _ => True) (outputsWithin b n e parent ss none) (outputsWithin b' depth' e parent ss none) :=
    fun hb' depth' hdepth' => outputs_fare (Nat.le_refl n) hdepth' (hends hb') nofun
  refine ⟨fun depth hdepth => (hfares hb depth hdepth).same, fun σ hparent => ?_⟩
  -- no hook is called, so the warden may be strict with them
  let W : Warden := { (⟨σ.host.count, True, True⟩ : Rules).warden with first := σ.instances.size }
  have hdrops : W.Drops := Rules.drops (R := ⟨σ.host.count, True, True⟩) trivial
  have hunhooked : b.unhooked.toInterpreter = interpreter ctx := hb
  have hguards : W.Guards True σ (outputsWithin b n e parent ss none) fun _ _ => True := by
    rw [← (hfares hunhooked n (Nat.le_refl n)).same]
    exact outputs_guards hdrops (W.hooks_unhooked b) n hparent nofun
  have hsafe : W.Safe σ := ⟨Nat.le_refl _, Nat.le_refl _, fun id _ hlate hget =>
    absurd (Array.getElem?_eq_some_iff.mp hget).1 (Nat.not_lt.mpr hlate)⟩
  have hinside : ∀ {σ' : Stage World}, W.Onward σ σ' → σ.host.Receives Ledger.Inside σ'.host := fun honward =>
    (Host.Works.receives honward.host).mono fun L m hfair => hfair.1 trivial
  rcases (hfares hb n (Nat.le_refl n)).ends σ with ⟨r, σ', hrun, -⟩ | ⟨halt, σ', hrun, hmistake⟩
  · exact ⟨σ', hinside (hguards.ok hsafe hrun).1, .inl ⟨r, hrun⟩⟩
  · cases halt with
    | error err => exact ⟨σ', hinside (hguards.error hsafe hrun).2.1, .inr ⟨err, hrun, hmistake⟩⟩
    | trouble t => exact hmistake.elim

namespace Html

/-- A reference that names a reference to a text. -/
def greeting (text : String) : SentenceDoc :=
  ⟨space, .firstLevel, [⟨space, "switchUse", [.str "html:switchUse", .list [.str "html:text", .str text]]⟩]⟩

/-- A greeting in a paragraph that is named by a reference. -/
def paragraph (text : String) : SentenceDoc :=
  ⟨space, .firstLevel, [⟨space, "switchUse", [.str "html:p", .list [.sentence (greeting text)]]⟩]⟩

theorem read_paragraph (text : String) (k : Nat) :
    (∃ s, (greeting text).toSentence Interpreter.counting registry k = .ok s (k + 1)) ∧
    ∃ s, (paragraph text).toSentence Interpreter.counting registry k = .ok s (k + 3) := by
  have hword : "switchUse" ∈ names := by decide
  have hget : registry.get? space = some lexicon := by
    rw [registry, Registry.register, Registry.get?, Entries.get?_put, name_lexicon, if_pos rfl]
  simp only [paragraph, greeting, SentenceDoc.toSentence, docsToLexems, docsToArgs, ArgDoc.toArg, hget, hasWord_eq,
    decide_eq_true hword, if_pos]
  exact ⟨⟨_, rfl⟩, _, rfl⟩

end Html

/-- A greeting and then a greeting in a paragraph are accepted, and sixteen levels are enough for them. -/
theorem documents_end_paragraph : ∃ s s' : Sentence,
    (Html.greeting "Hello").toSentence Interpreter.counting Html.registry 0 = .ok s 1 ∧
    (Html.paragraph "Bye").toSentence Interpreter.counting Html.registry 1 = .ok s' 4 ∧
    let e := (Engine.new Config.default).addLexicon Html.lexicon
    let b := Script.behaviour .html
    let σ : Stage World := ⟨Host.new, #[], World.new⟩
    outputsWithin b Engine.depthLimit e Host.root [s, s'] none = outputsWithin b 16 e Host.root [s, s'] none ∧
    ∃ σ', σ.host.Receives Ledger.Inside σ'.host ∧ ((∃ r, outputsWithin b 16 e Host.root [s, s'] none σ = .ok r σ') ∨
      ∃ err, outputsWithin b 16 e Host.root [s, s'] none σ = .error (.error err) σ' ∧ ¬ err.Internal) := by
  obtain ⟨⟨s, hs⟩, -⟩ := Html.read_paragraph "Hello" 0
  obtain ⟨-, s', hs'⟩ := Html.read_paragraph "Bye" 1
  have hends := documents_end .html (b := Script.behaviour .html) rfl
    (e := (Engine.new Config.default).addLexicon Html.lexicon) rfl (.cons ⟨0, 1, hs⟩ (.cons ⟨1, 4, hs'⟩ .nil)) (n := 16)
    (by decide) Host.root
  exact ⟨s, s', hs, hs', hends.1 Engine.depthLimit (by decide), hends.2 ⟨Host.new, #[], World.new⟩ (by decide)⟩

end Parlance
