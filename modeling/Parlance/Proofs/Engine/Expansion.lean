import Parlance.Html.Vocabulary
import Parlance.Proofs.Engine.RenderStep
import Parlance.Proofs.Html.Vocabulary
import Parlance.Proofs.Lexicon.Spelling
import Parlance.Script.Setup
import Parlance.Session.Basic

/-! Rendering a sentence of the first level and rendering it spelt out. A compound is developed when it is
rendered, and what it is developed into stands, spelt out, where the compound would be; so the two renderings make
the same calls of their hosts, lexem by lexem and error by error. Sentences on the first level are nested deeper,
so only the limit on that may keep them apart. -/

namespace Parlance

/-- The host without what its listeners call. -/
def Host.deaf (h : Host) : Host := { h with listeners := h.listeners.map fun _ => ⟨⟨0⟩, []⟩ }

/-- Stages whose hosts differ at most in what their listeners call. -/
def Stage.SameHost (σ σ' : Stage World) : Prop := σ.host.deaf = σ'.host.deaf

/-- Two passes that end alike on such stages, unless one of them goes deeper than it may. -/
def PassesAgree {α α' : Type} (Q : α → α' → Prop) (m : Pass World α) (m' : Pass World α') : Prop :=
  Agrees True (· = .trouble .exhausted) (· = .trouble .exhausted) Stage.SameHost Q m m'

namespace PassesAgree

variable {α α' β β' : Type} {Q : α → α' → Prop} {P : β → β' → Prop}

theorem bind {m : Pass World α} {m' : Pass World α'} {f : α → Pass World β} {f' : α' → Pass World β'}
    (h : PassesAgree Q m m') (hnext : ∀ x y, Q x y → PassesAgree P (f x) (f' y)) :
    PassesAgree P (m >>= f) (m' >>= f') := Agrees.bind h hnext

/-- What the passes have for a result need not be looked at. -/
theorem done (x : α) (y : α') : PassesAgree (fun _ _ => True) (pure x : Pass World α) (pure y : Pass World α') :=
  .pure trivial

theorem mapM {R : β → β' → Prop} {f : β → Pass World α} {f' : β' → Pass World α'} {as : List β} {as' : List β'}
    (has : List.Forall₂ R as as') (h : ∀ a a', R a a' → PassesAgree Q (f a) (f' a')) :
    PassesAgree (List.Forall₂ Q) (as.mapM f) (as'.mapM f') := Agrees.mapM has h

theorem ofExcept (r : Except PassError α) : PassesAgree Eq (Pass.ofExcept r) (Pass.ofExcept r) := by
  cases r with
  | ok x => exact .pure rfl
  | error err => exact .throw trivial _

/-- Results that may differ, where it is only looked at whether there is one. -/
theorem ofExcept_unit {r : Except PassError α} {r' : Except PassError α'}
    (h : r.map (fun _ => ()) = r'.map fun _ => ()) :
    PassesAgree (fun _ _ => True) (Pass.ofExcept r) (Pass.ofExcept r') := by
  cases r <;> cases r' <;> cases h
  case ok.ok.refl => exact .pure trivial
  case error.error.refl => exact .throw trivial _

theorem act {m : Act World α} {m' : Act World α'} (h : ActsAgree Q m m') :
    PassesAgree Q (Pass.act m) (Pass.act m') := by
  intro σ σ' hσ
  have hends := h σ.world σ'.world trivial
  unfold Pass.act
  generalize m σ.world = r, m' σ'.world = r' at hends
  cases hends with
  | ok hresult _ => exact .ok hresult hσ
  | error hfails _ => exact hfails.elim
  | stopped hstop => exact hstop.elim
  | stopped' hstop => exact .stopped' (hstop ▸ rfl)

theorem attempt {ε : Type} {fails : Prop} {m : Attempt ε World α} {m' : Attempt ε World α'}
    (h : AttemptsAgree fails Q m m') (cause : ε → PassError) :
    PassesAgree Q (Pass.attempt cause m) (Pass.attempt cause m') := by
  intro σ σ' hσ
  have hends := h σ.world σ'.world trivial
  unfold Pass.attempt
  generalize m σ.world = r, m' σ'.world = r' at hends
  cases hends with
  | ok hresult _ => exact .ok hresult hσ
  | @error err _ _ _ _ => cases err <;> exact .error trivial hσ
  | stopped hstop => exact hstop.elim
  | stopped' hstop =>
      subst hstop
      exact .stopped' rfl

/-- A change of the host to which it does not matter what listeners call. -/
theorem make {f : Host → α × Host} (hf : ∀ h, (f h).1 = (f h.deaf).1 ∧ (f h).2.deaf = (f h.deaf).2) :
    PassesAgree Eq (Pass.make f) (Pass.make f) := by
  intro σ σ' hσ
  refine .ok ?_ ?_
  · rw [(hf σ.host).1, (hf σ'.host).1, hσ]
  · change (f σ.host).2.deaf = (f σ'.host).2.deaf
    rw [(hf σ.host).2, (hf σ'.host).2, hσ]

theorem edit {f : Host → Host} (hf : ∀ h, (f h).deaf = f h.deaf) (x : α) :
    PassesAgree (fun _ _ => True) (do Pass.edit f; pure x) (do Pass.edit f; pure x) := by
  refine PassesAgree.bind (Q := fun _ _ => True) (fun σ σ' hσ => .ok trivial ?_) fun _ _ _ => .done x x
  change (f σ.host).deaf = (f σ'.host).deaf
  rw [hf, hf, hσ]

end PassesAgree

namespace Host

theorem deaf_detach (h : Host) (n : NodeId) : (h.detach n).deaf = h.deaf.detach n := by
  have hparent : h.deaf.parent n = h.parent n := rfl
  unfold detach
  rw [hparent]
  cases h.parent n <;> rfl

theorem deaf_place (h : Host) (parent n : NodeId) (anchor : Option NodeId) :
    (h.place parent n anchor).deaf = h.deaf.place parent n anchor := by
  cases anchor with
  | none =>
      rw [place, place, appendChild, appendChild, ← deaf_detach]
      rfl
  | some reference =>
      rw [place, place, insertBefore, insertBefore, ← deaf_detach]
      rfl

theorem deaf_addClasses (n : NodeId) (names : List String) (h : Host) :
    (names.foldl (fun h name => h.addClass n name) h).deaf = names.foldl (fun h name => h.addClass n name) h.deaf := by
  induction names generalizing h with
  | nil => rfl
  | cons name names ih => exact ih (h.addClass n name)

theorem deaf_addListener {h h' : Host} (hsame : h.deaf = h'.deaf) (n : NodeId) (event : String)
    (listener listener' : Listener) :
    (h.addListener n event listener).1 = (h'.addListener n event listener').1 ∧
      (h.addListener n event listener).2.deaf = (h'.addListener n event listener').2.deaf := by
  rcases h with ⟨nodes, listeners, mutations⟩
  rcases h' with ⟨nodes', listeners', mutations'⟩
  simp only [deaf, mk.injEq] at hsame
  obtain ⟨rfl, hlisteners, rfl⟩ := hsame
  have hsize : listeners.size = listeners'.size := by simpa using congrArg Array.size hlisteners
  refine ⟨by simp only [addListener, hsize], ?_⟩
  simp only [addListener, deaf, modify, record, hsize, Array.map_push, hlisteners]

end Host

namespace PassesAgree

theorem place {α : Type} {f : Host → α × Host} (hf : ∀ h, (f h).1 = (f h.deaf).1 ∧ (f h).2.deaf = (f h.deaf).2)
    (node : α → NodeId) (c : Cursor) :
    PassesAgree Eq (Pass.make fun h => ((f h).1, (f h).2.place c.parent (node (f h).1) c.anchor))
      (Pass.make fun h => ((f h).1, (f h).2.place c.parent (node (f h).1) c.anchor)) := by
  refine .make fun h => ⟨(hf h).1, ?_⟩
  change ((f h).2.place c.parent (node (f h).1) c.anchor).deaf = _
  rw [Host.deaf_place, (hf h).2, (hf h).1]

theorem witness (e : Engine) (c : Cursor) (label : String) :
    PassesAgree Eq (Pass.witness e c label) (Pass.witness e c label) :=
  place (f := fun h => h.createMarker (if e.config.labelMarkers then label else "")) (fun _ => ⟨rfl, rfl⟩) id c

theorem addListener (n : NodeId) (event : String) (listener listener' : Listener) :
    PassesAgree (fun _ _ => True) (Pass.make (·.addListener n event listener))
      (Pass.make (·.addListener n event listener')) :=
  fun _ _ hσ => .ok trivial (Host.deaf_addListener hσ n event listener listener').2

end PassesAgree

/-- The engine interprets the lexicons of the chain, and beside them only lexicons with call-only bodies. -/
structure Engine.Interprets (e : Engine) (d : Lexicon) : Prop where
  chain : ∀ owner ∈ d.chain, e.targets.get? owner.name = some owner
  bodies : ∀ {space l}, e.targets.get? space = some l → ∀ owner ∈ l.chain, owner.CallOnly

/-- Registering the lexicons of a list adds those whose names are free, the first of a name. -/
theorem Registry.get?_registerAll (space : String) (ls : List Lexicon) (r : Registry) :
    (ls.foldl (fun r l => if (r.lexicons.get? l.name).isSome then r else r.register l) r).get? space =
      (r.get? space).or (ls.find? fun l => l.name = space) := by
  induction ls generalizing r with
  | nil => simp
  | cons l ls ih =>
      rw [List.foldl_cons, ih, List.find?_cons]
      by_cases htaken : (r.lexicons.get? l.name).isSome = true
      · rw [if_pos htaken]
        by_cases hname : l.name = space
        · rw [decide_eq_true hname]
          obtain ⟨found, hfound⟩ := Option.isSome_iff_exists.mp htaken
          rw [get?, ← hname, hfound]
          rfl
        · rw [decide_eq_false hname]
      · rw [if_neg htaken]
        by_cases hname : l.name = space
        · have hfree : r.lexicons.get? space = none := by simpa [hname] using htaken
          rw [decide_eq_true hname, get?, get?, hfree, register, Entries.get?_put, if_pos hname.symm]
          rfl
        · rw [decide_eq_false hname, get?, get?, register, Entries.get?_put, if_neg fun heq => hname heq.symm]

namespace Engine

variable {ctx : Context} {d : Lexicon} {e : Engine}

/-- An engine that is made for a lexicon interprets it. -/
theorem interprets_new (hd : d.Expandable) (config : Config) : ((Engine.new config).addLexicon d).Interprets d := by
  have hget : ∀ space, ((Engine.new config).addLexicon d).targets.get? space =
      d.chain.find? fun l => l.name = space := fun space => Registry.get?_registerAll space d.chain Registry.empty
  refine ⟨fun owner howner => ?_, fun {space l} hl owner howner => ?_⟩
  · rw [hget]
    have hsome : (d.chain.find? fun l => l.name = owner.name).isSome = true :=
      List.find?_isSome.mpr ⟨owner, howner, decide_eq_true rfl⟩
    obtain ⟨found, hfound⟩ := Option.isSome_iff_exists.mp hsome
    have hname : found.name = owner.name := by simpa using List.find?_some hfound
    rw [hfound, hd.name_injective (List.mem_of_find?_eq_some hfound) howner hname]
  · rw [hget] at hl
    exact hd.bodies owner (Lexicon.mem_chain_trans d (List.mem_of_find?_eq_some hl) howner)

section Kept

variable {l l' : Lexem} (hl : l.Alike (ArgSpelt ctx d) l')
include hl

theorem invalid_spelt {α : Type} (index : Nat) (expected : String) :
    (l.invalid index expected : Except PassError α) = l'.invalid index expected := by
  rw [Lexem.invalid, Lexem.invalid, hl.name, ((spelt_conformity ctx d).arg hl index).conforms.kind_eq]

theorem scalarArg_spelt (index : Nat) : l.scalarArg index = l'.scalarArg index := by
  rw [Lexem.scalarArg, Lexem.scalarArg, ((spelt_conformity ctx d).arg hl index).toScalar_eq,
    invalid_spelt hl]

theorem listener_spelt : l.listener.map (fun _ => ()) = l'.listener.map fun _ => () := by
  have harg := (spelt_conformity ctx d).arg hl 1
  have htext := (spelt_conformity ctx d).toText_eq ((spelt_conformity ctx d).arg hl 0)
  unfold Lexem.listener
  rw [htext]
  generalize l.arg 1 = a, l'.arg 1 = a' at harg
  cases harg <;> rfl

/-- There are no hooks and no components among the arguments, and callbacks stay callbacks. -/
theorem functions_spelt : l.callbackArg.map (fun _ => ()) = l'.callbackArg.map (fun _ => ()) ∧
    l.hookArg = l.invalid 0 "a host hook" ∧ l'.hookArg = l.invalid 0 "a host hook" ∧
    l.componentArg = l.invalid 0 "a component factory" ∧ l'.componentArg = l.invalid 0 "a component factory" := by
  have harg := (spelt_conformity ctx d).arg hl 0
  have hcallback := invalid_spelt (α := Identity) hl 0 "a callback"
  have hhook := invalid_spelt (α := Identity) hl 0 "a host hook"
  have hcomponent := invalid_spelt (α := Factory) hl 0 "a component factory"
  unfold Lexem.callbackArg Lexem.hookArg Lexem.componentArg
  rw [← hcallback, ← hhook, ← hcomponent]
  generalize (l.invalid 0 _ : Except PassError Identity) = failure
  generalize l.arg 0 = a, l'.arg 0 = a' at harg
  cases harg <;> exact ⟨rfl, rfl, rfl, rfl, rfl⟩

end Kept

/-- A callback leaves at most a line in the journal. -/
theorem callCallback_spelt (callback callback' : Identity) (args args' : List Arg) :
    ActsAgree (fun _ _ => True) (Script.callCallback callback args) (Script.callCallback callback' args') := by
  have hok : ∀ (callback : Identity) (args : List Arg) (w : World),
      ∃ w', Script.callCallback callback args w = .ok () w' := by
    intro callback args w
    obtain ⟨cell, hcell⟩ : ∃ cell, w.cell callback = cell := ⟨_, rfl⟩
    simp only [Script.callCallback, bind, EStateM.bind, get, getThe, MonadStateOf.get]
    delta EStateM.get
    simp only [hcell]
    cases cell <;> exact ⟨_, rfl⟩
  intro w w' _
  obtain ⟨_, hleft⟩ := hok callback args w
  obtain ⟨_, hright⟩ := hok callback' args' w'
  rw [hleft, hright]
  exact .ok trivial trivial

/-- The second phrase says the first one, spelt out. -/
def PhraseSpelt (ctx : Context) (d : Lexicon) (p p' : Phrase) : Prop :=
  LexemsSpelt ctx d p.sentence.lexems p'.sentence.lexems

section Phrases

variable {l l' : Lexem} (hl : l.Alike (ArgSpelt ctx d) l')
include hl

theorem childPhrase_spelt {child child' : Arg} (h : ArgSpelt ctx d child child') :
    PassesAgree (PhraseSpelt ctx d) (Pass.ofExcept (e.childPhrase l child))
      (Pass.ofExcept (e.childPhrase l' child')) := by
  have htext : LexemsSpelt ctx d [⟨l.space, "text", [child]⟩] [⟨l.space, "text", [child']⟩] :=
    .singleton (.cons h .nil)
  unfold childPhrase
  rw [← hl.space]
  cases h with
  | sentence hlexems => exact .pure hlexems
  | _ =>
      cases e.targets.get l.space with
      | error err => exact .throw trivial _
      | ok lexicon => exact .pure htext

theorem chosenPhrase_spelt : PassesAgree (Option.Rel (PhraseSpelt ctx d))
    (chosenPhrase (Script.behaviour ctx) l) (chosenPhrase (Script.behaviour ctx) l') := by
  have hconform := spelt_conformity ctx d
  unfold chosenPhrase
  simp only [(hconform.arg hl 0).conforms.isTruthy_eq, ← invalid_spelt (α := Option Phrase) hl]
  generalize (if (l'.arg 0).isTruthy = true then 1 else 2) = index
  have harg := hconform.arg hl index
  generalize l.arg index = a, l'.arg index = a' at harg
  cases harg with
  | null => exact .pure .none
  | sentence hlexems => exact .pure (.some hlexems)
  | _ => exact .throw trivial _

/-- The items of an `each` are made by a render function, and there is none. -/
theorem eachPhrases_spelt : PassesAgree (fun _ _ => False)
    (eachPhrases (Script.behaviour ctx) l) (eachPhrases (Script.behaviour ctx) l') := by
  have hitems := (spelt_conformity ctx d).arg hl 0
  have hrender := (spelt_conformity ctx d).arg hl 1
  unfold eachPhrases
  simp only [← invalid_spelt hl]
  generalize l.arg 0 = a, l'.arg 0 = a', l.arg 1 = r, l'.arg 1 = r' at hitems hrender
  cases hitems with
  | null | list _ => cases hrender <;> exact .throw trivial _
  | _ => exact .throw trivial _

variable (hd : d.Expandable) (he : e.Interprets d)
include hd he

omit hl in
/-- A word of a lexicon that the engine interprets does the same on an empty sentence of the first level. -/
theorem useReference_spelt {lexicon : Lexicon} {reference : String} {args args' : List Arg}
    (hlexicon : e.targets.get? (String.ofList (reference.toList.takeWhile (· ≠ ':'))) = some lexicon)
    (hargs : List.Forall₂ (ArgSpelt ctx d) args args') :
    AttemptsAgree True (fun s s' => LexemsSpelt ctx d s.lexems s'.lexems)
      ((Sentence.empty lexicon .firstLevel).useReference (Script.interpreter ctx) e.targets reference args)
      ((Sentence.empty lexicon .firstLevel).useReference (Script.interpreter ctx) e.targets reference args') := by
  have hspells : (Script.interpreter ctx).Spells ctx d (Script.interpreter ctx) := Script.interpreter_spelt ctx hd
  have habreast : Abreast d lexicon .firstLevel (Sentence.empty lexicon .firstLevel)
      (Sentence.empty lexicon .firstLevel) := ⟨.same (he.bodies hlexicon), rfl, rfl⟩
  unfold Sentence.useReference
  rcases hparts : Sentence.splitReference reference with _ | ⟨lexiconName, name⟩
  · exact .throw trivial _
  have hname : lexiconName = String.ofList (reference.toList.takeWhile (· ≠ ':')) := by
    simp only [Sentence.splitReference] at hparts
    split at hparts
    · cases hparts
    · cases hparts
      rfl
  simp only [hname, hlexicon]
  rcases hresolve : lexicon.resolve name with _ | ⟨owner, word⟩
  · exact .throw trivial _
  obtain ⟨howner, hword⟩ := Lexicon.resolve_eq_some hresolve
  exact (apply_spelt hd hspells hspells habreast howner hword (fun _ _ _ _ => ⟨.refl _ _, .refl _ _⟩)
    hargs).ofAct.mono fun _ _ h => h.lexems

theorem switchedPhrase_spelt : PassesAgree (Option.Rel (PhraseSpelt ctx d))
    (e.switchedPhrase (Script.behaviour ctx) l) (e.switchedPhrase (Script.behaviour ctx) l') := by
  have hconform := spelt_conformity ctx d
  have hitems := (hconform.arg hl 1).conforms.items
  have harg := hconform.arg hl 0
  unfold switchedPhrase
  rw [← invalid_spelt (α := Option Phrase) hl]
  generalize l.arg 0 = a, l'.arg 0 = a' at harg
  cases harg with
  | null => exact .pure .none
  | sentence hlexems => exact .pure (.some hlexems)
  | @str reference =>
      simp only [Registry.get]
      cases hlexicon : e.targets.get? (String.ofList (reference.toList.takeWhile (· ≠ ':'))) with
      | none => exact .throw trivial _
      | some lexicon =>
          exact (PassesAgree.attempt (useReference_spelt hd he hlexicon hitems) _).bind fun _ _ h => .pure (.some h)
  | _ => exact .throw trivial _

/-- The lexem of a compound that neither level spells out is developed alike. -/
theorem develop_spelt : PassesAgree (fun s s' => LexemsSpelt ctx d s.lexems s'.lexems)
    (e.develop (Script.behaviour ctx) l) (e.develop (Script.behaviour ctx) l') := by
  unfold develop Registry.get
  rw [← hl.space]
  cases hlexicon : e.targets.get? l.space with
  | none => exact .throw trivial _
  | some lexicon =>
      refine PassesAgree.attempt (show AttemptsAgree True _ _ _ from ?_) _
      unfold Lexicon.develop Lexicon.expand
      rw [← hl.name]
      rcases hresolve : lexicon.resolve l.name with _ | ⟨owner, _ | body | body⟩
      case some.some.compound =>
        obtain ⟨howner, hword⟩ := Lexicon.resolve_eq_some hresolve
        have hbodies := he.bodies hlexicon
        have habreast : Abreast d lexicon .firstLevel (Sentence.empty lexicon .firstLevel)
            (Sentence.empty lexicon .firstLevel) := ⟨.same hbodies, rfl, rfl⟩
        exact (Script.interpreter_spelt ctx hd habreast howner (fun _ _ => ⟨.refl _ _, .refl _ _⟩)
          ((hbodies owner howner).plain hword rfl) hl.args).ofAct.mono fun _ _ h => h.lexems
      all_goals exact .throw trivial _

end Phrases

section Lexems

variable {inner inner' : Cursor → Phrase → Pass World Rendered} {c : Cursor}
  (hinner : ∀ {c : Cursor} {p p' : Phrase}, c.component = none → PhraseSpelt ctx d p p' →
    PassesAgree (fun _ _ => True) (inner c p) (inner' c p'))
  (hc : c.component = none)
include hinner hc

theorem renderBranch_spelt {chosen chosen' : Option Phrase} (label : String)
    (h : Option.Rel (PhraseSpelt ctx d) chosen chosen') :
    PassesAgree (fun _ _ => True) (renderBranch inner e c label chosen) (renderBranch inner' e c label chosen') := by
  unfold renderBranch
  cases h with
  | none =>
      simp only [pure_bind]
      exact (PassesAgree.witness e c label).bind fun _ _ _ => .done _ _
  | some hphrase =>
      simp only [pure_bind]
      exact (hinner hc hphrase).bind fun _ _ _ => (PassesAgree.witness e c label).bind fun _ _ _ => .done _ _

variable {l l' : Lexem} (hl : l.Alike (ArgSpelt ctx d) l')
include hl

theorem renderTag_spelt :
    PassesAgree (fun _ _ => True) (renderTag inner e c l) (renderTag inner' e c l') := by
  have hconform := spelt_conformity ctx d
  unfold renderTag
  rw [hconform.stringArg_eq hl 0]
  refine (PassesAgree.ofExcept _).bind fun tag _ htag => ?_
  subst htag
  refine (PassesAgree.place (f := fun h => h.createElement tag) (fun _ => ⟨rfl, rfl⟩) id c).bind fun node _ hnode => ?_
  subst hnode
  refine (PassesAgree.mapM (Q := fun _ _ => True) (hconform.children hl) fun child child' hchild => ?_).bind
    fun _ _ _ => .done _ _
  exact (childPhrase_spelt hl hchild).bind fun _ _ hphrase => hinner hc hphrase

variable (hd : d.Expandable) (he : e.Interprets d)
include hd he

/-- An instruction whose lexem stands on both sides makes the same calls. -/
theorem renderInstruction_spelt (i : Instruction) :
    PassesAgree (fun _ _ => True) (renderInstruction (Script.behaviour ctx) inner e c l i)
      (renderInstruction (Script.behaviour ctx) inner' e c l' i) := by
  have hconform := spelt_conformity ctx d
  have htext := fun index => hconform.toText_eq (hconform.arg hl index)
  have hstring := hconform.stringArg_eq hl 0
  cases i with
  | tag => exact renderTag_spelt hinner hc hl
  | text =>
      simp only [renderInstruction, htext]
      exact (PassesAgree.place (f := fun h => h.createText (l'.arg 0).toText) (fun _ => ⟨rfl, rfl⟩) id c).bind
        fun _ _ _ => .done _ _
  | attr | data | style =>
      simp only [renderInstruction, htext, hstring]
      refine (PassesAgree.ofExcept _).bind fun name _ hname => ?_
      subst hname
      exact .edit (fun _ => by rfl) _
  | prop =>
      simp only [renderInstruction, hstring, scalarArg_spelt hl]
      refine (PassesAgree.ofExcept _).bind fun name _ hname => (PassesAgree.ofExcept _).bind fun value _ hvalue => ?_
      subst hname hvalue
      exact .edit (fun _ => by rfl) _
  | cssClass =>
      simp only [renderInstruction, hconform.presentClass_eq hl]
      cases l'.presentClass? with
      | none => exact .done _ _
      | some name => exact .edit (fun _ => by rfl) _
  | classes =>
      simp only [renderInstruction, hconform.splitClasses_eq hl]
      exact .edit (fun h => h.deaf_addClasses _ _) _
  | id =>
      simp only [renderInstruction, htext]
      exact .edit (fun _ => by rfl) _
  | on =>
      simp only [renderInstruction, hstring]
      refine (PassesAgree.ofExcept _).bind fun event _ hevent => ?_
      subst hevent
      exact (PassesAgree.ofExcept_unit (listener_spelt hl)).bind fun listener listener' _ =>
        (PassesAgree.addListener c.parent event listener listener').bind fun _ _ _ => .done _ _
  | ifElse =>
      exact (chosenPhrase_spelt hl).bind fun _ _ hchosen => renderBranch_spelt hinner hc "if" hchosen
  | switchUse =>
      exact (switchedPhrase_spelt hl hd he).bind fun _ _ hchosen => renderBranch_spelt hinner hc "switchUse" hchosen
  | each => exact (eachPhrases_spelt hl).bind fun _ _ hnone => hnone.elim
  | html =>
      simp only [renderInstruction, htext]
      refine (PassesAgree.make fun h => ⟨?_, ?_⟩).bind fun _ _ _ =>
        (PassesAgree.witness e c "html").bind fun _ _ _ => .done _ _
      · rfl
      · rfl
  | onDom =>
      simp only [renderInstruction, (functions_spelt hl).2.1, (functions_spelt hl).2.2.1]
      exact .throw trivial _
  | execute =>
      refine PassesAgree.bind (Q := fun _ _ => True) ?_ fun _ _ _ => .done _ _
      refine (PassesAgree.ofExcept_unit (functions_spelt hl).1).bind fun callback callback' _ => ?_
      exact .act (callCallback_spelt callback callback' _ _)
  | ref =>
      simp only [renderInstruction, nameNode, hc]
      exact .done _ _
  | component =>
      simp only [renderInstruction, (functions_spelt hl).2.2.2.1, (functions_spelt hl).2.2.2.2]
      exact .throw trivial _

/-- A lexem that stands on both sides is rendered alike. -/
theorem renderLexem_spelt :
    PassesAgree (fun _ _ => True) (renderLexem (Script.behaviour ctx) inner e c l)
      (renderLexem (Script.behaviour ctx) inner' e c l') := by
  have hword : e.instruction? l' = e.instruction? l := by rw [instruction?, instruction?, hl.space, hl.name]
  unfold renderLexem
  rw [hword, ← hl.space]
  split
  · cases e.instruction? l with
    | some i => exact renderInstruction_spelt hinner hc hl hd he i
    | none =>
        refine (develop_spelt hl hd he).bind fun s s' hs => ?_
        have hphrase : PhraseSpelt ctx d (.new s) (.new s') := hs
        exact (hinner hc hphrase).bind fun _ _ _ => .done _ _
  · exact .done _ _

end Lexems

/-- A compound is developed, and its development is rendered where it is spelt out on the other side. -/
theorem renderCompound_spelt {inner : Cursor → Phrase → Pass World Rendered} {c : Cursor} {α : Type}
    {m : Pass World α} (he : e.Interprets d) {owner : Lexicon} {name : String} {args : List Arg} {body : Body}
    {development : World → Sentence} {part : List Lexem} (howner : owner ∈ d.chain)
    (hword : owner.words.get? name = some (.compound body))
    (hrun : ∀ w, ∃ w', (Script.interpreter ctx).run body ⟨owner, .firstLevel⟩
      (Sentence.empty owner .firstLevel) args w = .ok (development w) w')
    (hpart : ∀ w, LexemsSpelt ctx d (development w).lexems part)
    (hinner : ∀ {s : Sentence}, LexemsSpelt ctx d s.lexems part → PassesAgree (fun _ _ => True) (inner c (.new s)) m) :
    PassesAgree (fun _ _ => True) (renderLexem (Script.behaviour ctx) inner e c ⟨owner.name, name, args⟩) m := by
  have hresolve := Lexicon.resolve_own hword
  have htarget : e.isTarget owner.name = true := by
    rw [isTarget, Registry.contains, he.chain owner howner]
    rfl
  have hnone : e.instruction? ⟨owner.name, name, args⟩ = none := by
    simp only [instruction?, he.chain owner howner, Lexicon.develops, Lexicon.kindOf, hresolve]
    rfl
  have hdevelop : PassesAgree (fun s _ => LexemsSpelt ctx d s.lexems part)
      (e.develop (Script.behaviour ctx) ⟨owner.name, name, args⟩) (pure ()) := by
    intro σ σ' hσ
    obtain ⟨w', hw⟩ := hrun σ.world
    have hok : e.develop (Script.behaviour ctx) ⟨owner.name, name, args⟩ σ =
        .ok (development σ.world) (σ.inWorld w') := by
      simp only [develop, Registry.get, he.chain owner howner, Lexicon.develop, Lexicon.expand, hresolve]
      exact Pass.attempt_eq_ok.mpr ⟨w', Attempt.ofAct_eq_ok.mpr hw, rfl⟩
    rw [hok]
    exact .ok (hpart σ.world) hσ
  have hsteps : m = (pure () >>= fun _ => m >>= fun x => pure x) := by simp
  unfold renderLexem
  rw [htarget, if_pos rfl, hnone, hsteps]
  exact hdevelop.bind fun _ _ hs => (hinner hs).bind fun _ _ _ => .done _ _

section Passes

variable (hd : d.Expandable) (he : e.Interprets d)
include hd he

/-- Lexems are rendered alike if what is inside them is. -/
theorem renderLexems_spelt {inner inner' : Cursor → Phrase → Pass World Rendered} {c : Cursor}
    (hc : c.component = none)
    (hinner : ∀ {c : Cursor} {p p' : Phrase}, c.component = none → PhraseSpelt ctx d p p' →
      PassesAgree (fun _ _ => True) (inner c p) (inner' c p'))
    (hpart : ∀ {s : Sentence} {part : List Lexem}, LexemsSpelt ctx d s.lexems part →
      PassesAgree (fun _ _ => True) (inner c (.new s))
        (part.mapM (renderLexem (Script.behaviour ctx) inner' e c))) :
    ∀ {ls ls' : List Lexem}, LexemsSpelt ctx d ls ls' →
      PassesAgree (fun _ _ => True) (ls.mapM (renderLexem (Script.behaviour ctx) inner e c))
        (ls'.mapM (renderLexem (Script.behaviour ctx) inner' e c))
  | _, _, .nil => .done _ _
  | _, _, @LexemsSpelt.kept _ _ space name args args' _ _ hargs htail => by
      rw [List.mapM_cons, List.mapM_cons]
      have hl : Lexem.Alike (ArgSpelt ctx d) ⟨space, name, args⟩ ⟨space, name, args'⟩ := ⟨rfl, rfl, hargs⟩
      exact (renderLexem_spelt hinner hc hl hd he).bind fun _ _ _ =>
        (renderLexems_spelt hc hinner hpart htail).bind fun _ _ _ => .done _ _
  | _, _, .spelt howner hword hrun hdevelopment htail => by
      rw [List.mapM_cons, List.mapM_append]
      exact (renderCompound_spelt he howner hword hrun hdevelopment hpart).bind fun _ _ _ =>
        (renderLexems_spelt hc hinner hpart htail).bind fun _ _ _ => .done _ _

/-- Sentences that may be nested at least as deep where they are spelt out are rendered alike. -/
theorem renderWithin_spelt (depth : Nat) : ∀ {depth' : Nat}, depth ≤ depth' → ∀ {c : Cursor}, c.component = none →
    (∀ {p p' : Phrase}, PhraseSpelt ctx d p p' → PassesAgree (fun _ _ => True)
      (renderWithin (Script.behaviour ctx) depth e c p) (renderWithin (Script.behaviour ctx) depth' e c p')) ∧
    ∀ {s : Sentence} {part : List Lexem}, LexemsSpelt ctx d s.lexems part → PassesAgree (fun _ _ => True)
      (renderWithin (Script.behaviour ctx) depth e c (.new s))
      (part.mapM (renderLexem (Script.behaviour ctx) (renderWithin (Script.behaviour ctx) depth' e) e c)) := by
  induction depth with
  | zero => exact fun _ _ _ => ⟨fun _ => .stopped rfl, fun _ => .stopped rfl⟩
  | succ depth ih =>
      intro depth' hdepth c hc
      -- what is rendered inside is one level deeper on the first side, and on the other side it may be
      have hlexems : ∀ {depth'}, depth ≤ depth' → ∀ {ls ls' : List Lexem}, LexemsSpelt ctx d ls ls' →
          PassesAgree (fun _ _ => True)
            (ls.mapM (renderLexem (Script.behaviour ctx) (renderWithin (Script.behaviour ctx) depth e) e c))
            (ls'.mapM (renderLexem (Script.behaviour ctx) (renderWithin (Script.behaviour ctx) depth' e) e c)) :=
        fun hle _ _ hls => renderLexems_spelt hd he hc (fun hc => (ih hle hc).1) (ih hle hc).2 hls
      refine ⟨fun hp => ?_, fun hs => ?_⟩
      · cases depth' with
        | zero => exact absurd hdepth (Nat.not_succ_le_zero _)
        | succ depth' =>
            exact (hlexems (Nat.le_of_succ_le_succ hdepth) hp).bind fun _ _ _ => .done _ _
      · have hsteps := fun m : Pass World (List Slot) => (bind_pure m).symm
        rw [hsteps (List.mapM _ _)]
        exact (hlexems (Nat.le_of_succ_le hdepth) hs).bind fun _ _ _ => .done _ _

end Passes

end Engine

/-- An attempt in the world of a stage. -/
def Attempt.onStage {ε ω α : Type} (attempt : Attempt ε ω α) : Attempt ε (Stage ω) α := fun σ =>
  match attempt σ.world with
  | .ok x w => .ok x (σ.inWorld w)
  | .error err w => .error err (σ.inWorld w)

/-- Builds a program with an initializer and renders what comes of it under a parent. -/
def Engine.tell (e : Engine) (ctx : Context) (h : Initializer) (parent : NodeId) (program : List Call) :
    Attempt SessionError (Stage World) Rendered := do
  let build := Script.build ctx (Script.interpreter ctx) (.new h) h.empty program
  let s ← (build.mapError SessionError.script).onStage
  Attempt.mapError SessionError.pass (e.render (Script.behaviour ctx) parent s)

/-- Two attempts that have ended alike for their hosts: both have succeeded or failed with one error, and the
hosts have received the same calls. -/
inductive SameOutcome {ε α : Type} :
    EStateM.Result ε (Stage World) α → EStateM.Result ε (Stage World) α → Prop
  | ok {x x' : α} {σ σ' : Stage World} (hmutations : σ.host.mutations = σ'.host.mutations)
      (hnodes : σ.host.nodes = σ'.host.nodes) : SameOutcome (.ok x σ) (.ok x' σ')
  | error {err : ε} {σ σ' : Stage World} (hmutations : σ.host.mutations = σ'.host.mutations)
      (hnodes : σ.host.nodes = σ'.host.nodes) : SameOutcome (.error err σ) (.error err σ')

/-- An attempt that has given up because it would have gone deeper than it may. -/
def TooDeep {ε α : Type} (r : EStateM.Result (Halt ε) (Stage World) α) : Prop :=
  ∃ σ, r = .error (.trouble .exhausted) σ

theorem Attempt.onStage_agrees {ε α α' : Type} {Q : α → α' → Prop} {m : Attempt ε World α} {m' : Attempt ε World α'}
    (h : AttemptsAgree True Q m m') : Agrees True (· = Halt.trouble .exhausted) (· = Halt.trouble .exhausted)
      Stage.SameHost Q m.onStage m'.onStage := by
  intro σ σ' hσ
  have hends := h σ.world σ'.world trivial
  unfold Attempt.onStage
  generalize m σ.world = r, m' σ'.world = r' at hends
  cases hends with
  | ok hresult _ => exact .ok hresult hσ
  | error _ _ => exact .error trivial hσ
  | stopped hstop => exact hstop.elim
  | stopped' hstop => exact .stopped' hstop

theorem PassesAgree.mapError {ε α α' : Type} {Q : α → α' → Prop} {m : Pass World α} {m' : Pass World α'}
    (h : PassesAgree Q m m') (f : PassError → ε) :
    Agrees True (· = Halt.trouble .exhausted) (· = Halt.trouble .exhausted) Stage.SameHost Q
      (Attempt.mapError f m) (Attempt.mapError f m') := by
  intro σ σ' hσ
  have hends := h σ σ' hσ
  unfold Attempt.mapError
  generalize m σ = r, m' σ' = r' at hends
  cases hends with
  | ok hresult hstate => exact .ok hresult hstate
  | @error err _ _ _ hstate => cases err <;> exact .error trivial hstate
  | stopped hstop =>
      subst hstop
      exact .stopped rfl
  | stopped' hstop =>
      subst hstop
      exact .stopped' rfl

/-- Whether an attempt has succeeded after so many calls of the host. -/
def succeededAfter {ε α : Type} (n : Nat) : EStateM.Result ε (Stage World) α → Bool
  | .ok _ σ => σ.host.mutations.size = n
  | .error _ _ => false

theorem not_tooDeep {ε α : Type} {n : Nat} {r : EStateM.Result (Halt ε) (Stage World) α}
    (h : succeededAfter n r = true) : ¬ TooDeep r := by
  rintro ⟨σ, rfl⟩
  cases h

namespace Html

/-- A dialect of the built-in vocabulary with a section under a heading. -/
def cards : Lexicon :=
  (Lexicon.new "cards" (some lexicon)).addCompounds
    [("card", body [.word "section" [phrase [.word "h1" [.arg 0]], .rest 1]])]

/-- A card with a card and a text in it. -/
def nestedCards : List Call :=
  [.word "card" [.str "Outer", phrase [.word "card" [.str "Inner", .list [.str "first"]]], .str "last"]]

theorem cards_expandable : cards.Expandable := by
  refine lexicon_expandable.dialect (by decide) ?_ ?_ <;> rw [hasWord_eq] <;> decide

end Html

end Parlance
