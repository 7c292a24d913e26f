import Parlance.Engine.Output
import Parlance.Proofs.Engine.Removal
import Parlance.Proofs.Lexicon.Agreement

/-! Passes that come to an end, whatever depth they are allowed and whoever runs functions for them. Of two such passes
it is said that they are the same, and that they succeed or fail by a mistake in the sentences. For a lexem whose
arguments are plain data this follows from the same for the sentences inside it. -/

namespace Parlance

open Pass

/-- An error that is not about the sentences that were handed in: a word that should develop and does not, or a
component that is not as it was left. -/
def PassError.Internal : PassError → Prop
  | .vocabulary (.missingDevelopment _ _) | .componentTypeChanged _ _ | .notMounted _ | .undeclared _ => True
  | _ => False

/-- A pass ends in an error about the sentences, and not in a trouble. -/
def Halt.Mistake : Halt PassError → Prop
  | .error err => ¬ err.Internal
  | .trouble _ => False

/-- Whatever goes wrong here is a mistake in the sentences. -/
def Outward {α : Type} (x : Except PassError α) : Prop := ∀ err, x = .error err → ¬ err.Internal

section Outward

variable {α β : Type} (lexem old : Lexem) (index : Nat)

theorem Outward.ok (a : α) : Outward (.ok a : Except PassError α) := nofun

theorem Outward.error {err : PassError} (h : ¬ err.Internal) : Outward (.error err : Except PassError α) := by
  rintro _ ⟨⟩
  exact h

theorem Outward.bind {x : Except PassError α} {f : α → Except PassError β} (hx : Outward x) (hf : ∀ a, Outward (f a)) :
    Outward (x >>= f) := by
  cases x with
  | ok a => exact hf a
  | error err =>
      rintro _ ⟨⟩
      exact hx err rfl

namespace Lexem

theorem outward_invalid (expected : String) : Outward (lexem.invalid index expected : Except PassError α) := .error id

theorem outward_incongruent : Outward (lexem.incongruent old index : Except PassError α) := .error id

theorem outward_stringArg : Outward (lexem.stringArg index) := by
  unfold stringArg
  split
  · exact .ok _
  · exact lexem.outward_invalid index _

theorem outward_scalarArg : Outward (lexem.scalarArg index) := by
  unfold scalarArg
  split
  · exact .ok _
  · exact lexem.outward_invalid index _

theorem outward_listener : Outward lexem.listener := by
  unfold listener
  split
  · exact .ok _
  · exact .error id

theorem outward_hookArg : Outward lexem.hookArg := by
  unfold hookArg
  split
  · exact .ok _
  · exact lexem.outward_invalid 0 _

theorem outward_callbackArg : Outward lexem.callbackArg := by
  unfold callbackArg
  split
  · exact .ok _
  · exact lexem.outward_invalid 0 _

theorem outward_componentArg : Outward lexem.componentArg := by
  unfold componentArg
  split
  · exact .ok _
  · exact lexem.outward_invalid 0 _

theorem outward_diffEntry (set : String → String → Host → Host) (remove : String → Host → Host) :
    Outward (lexem.diffEntry old set remove) := by
  refine .bind (lexem.outward_stringArg 0) fun key => .bind (old.outward_stringArg 0) fun oldKey => ?_
  dsimp only
  split
  · exact .ok _
  · split <;> exact .ok _

theorem outward_diffProperty (live : Bool) (node : NodeId) : Outward (lexem.diffProperty old live node) := by
  refine .bind (lexem.outward_stringArg 0) fun name => .bind (old.outward_stringArg 0) fun oldName =>
    .bind (lexem.outward_scalarArg 1) fun value => ?_
  dsimp only
  split
  · exact .ok _
  · split
    · exact .ok _
    · split <;> exact .ok _

end Lexem

theorem Engine.outward_childPhrase (e : Engine) (tag : Lexem) (child : Arg) : Outward (e.childPhrase tag child) := by
  unfold Engine.childPhrase
  split
  · exact .ok _
  · unfold Registry.get
    cases e.targets.get? tag.space with
    | none => exact .error id
    | some lexicon => exact .ok _

end Outward

variable {ω α β : Type}

/-- Two passes are the same one, and it ends with a result that is as it should be or in a mistake. -/
structure Fares (P : α → Prop) (m m' : Pass ω α) : Prop where
  same : m' = m
  ends : Yields Halt.Mistake P m

namespace Fares

variable {P P' : α → Prop} {Q : β → Prop} {m m' : Pass ω α}

theorem pure {x : α} (h : P x) : Fares P (Pure.pure x : Pass ω α) (Pure.pure x) := ⟨rfl, .pure h⟩

theorem ofExcept {x : Except PassError α} (h : Outward x) :
    Fares (fun a => x = .ok a) (Pass.ofExcept x : Pass ω α) (Pass.ofExcept x) := by
  cases x with
  | ok a => exact .pure rfl
  | error err => exact ⟨rfl, .throw (h err rfl)⟩

theorem fail {err : PassError} (h : ¬ err.Internal) : Fares P (Pass.fail err : Pass ω α) (Pass.fail err) :=
  ⟨rfl, .throw h⟩

theorem edit (f : Host → Host) : Fares (fun _ => True) (Pass.edit f : Pass ω Unit) (Pass.edit f) :=
  ⟨rfl, fun _ => .inl ⟨_, _, rfl, trivial⟩⟩

theorem make {f : Host → α × Host} (h : ∀ host, P (f host).1) : Fares P (Pass.make f : Pass ω α) (Pass.make f) :=
  ⟨rfl, fun σ => .inl ⟨_, _, rfl, h σ.host⟩⟩

theorem instances : Fares (fun _ => True) (Pass.instances : Pass ω (Array Instance)) Pass.instances :=
  ⟨rfl, fun _ => .inl ⟨_, _, rfl, trivial⟩⟩

theorem editInstance (id : InstanceId) (f : Instance → Instance) :
    Fares (fun _ => True) (Pass.editInstance id f : Pass ω Unit) (Pass.editInstance id f) :=
  ⟨rfl, fun _ => .inl ⟨_, _, rfl, trivial⟩⟩

theorem mono (h : Fares P m m') (hP : ∀ x, P x → P' x) : Fares P' m m' := ⟨h.same, h.ends.mono hP⟩

/-- The second passes need only be the same after results that the first may come to. -/
theorem bind {f f' : α → Pass ω β} (h : Fares P m m') (hnext : ∀ x, P x → Fares Q (f x) (f' x)) :
    Fares Q (m >>= f) (m' >>= f') := by
  refine ⟨?_, h.ends.bind fun x hx => (hnext x hx).ends⟩
  rw [h.same]
  funext σ
  change EStateM.bind m f' σ = EStateM.bind m f σ
  unfold EStateM.bind
  rcases h.ends σ with ⟨x, σ', hm, hx⟩ | ⟨err, σ', hm, -⟩
  · rw [hm]
    exact congrFun (hnext x hx).same σ'
  · rw [hm]

theorem mapM {f f' : β → Pass ω α} {as : List β} (h : ∀ a ∈ as, Fares P (f a) (f' a)) :
    Fares (fun xs => ∀ x ∈ xs, P x) (as.mapM f) (as.mapM f') := by
  induction as with
  | nil => exact .pure (by simp)
  | cons a as ih =>
      rw [List.mapM_cons, List.mapM_cons]
      refine (h a List.mem_cons_self).bind fun x hx => ?_
      refine (ih fun a ha => h a (List.mem_cons_of_mem _ ha)).bind fun xs hxs => .pure ?_
      simpa using ⟨hx, hxs⟩

theorem forM {f f' : β → Pass ω PUnit} {as : List β} (h : ∀ a ∈ as, Fares (fun _ => True) (f a) (f' a)) :
    Fares (fun _ => True) (as.forM f) (as.forM f') := by
  induction as with
  | nil => exact .pure trivial
  | cons a as ih =>
      change Fares _ (f a >>= fun _ => as.forM f) (f' a >>= fun _ => as.forM f')
      exact (h a List.mem_cons_self).bind fun _ _ => ih fun a ha => h a (List.mem_cons_of_mem _ ha)

end Fares

section Removing

variable {b b' : Behaviour ω}

theorem unmounting_fares (detach : Array Instance → Host → Host) :
    Fares (fun _ => True) (unmounting b [] detach) (unmounting b' [] detach) :=
  .bind (.pure (P := fun _ => True) trivial) fun _ _ => .bind .instances fun _ _ => .bind (.edit _) fun _ _ => .pure trivial

/-- To remove a bare output is the same for everyone. -/
theorem teardown_fares (p : NodeId) {r : Rendered} (hbare : Bare r.slots) :
    Fares (fun _ => True) (teardown b p r) (teardown b' p r) := by
  refine .bind .instances fun t _ => ?_
  rw [seekWith_bare r hbare, seekWith_bare r hbare, pure_bind, pure_bind]
  exact unmounting_fares _

theorem teardownSlot_fares (p : NodeId) (lexem : Lexem) {slot : Slot} (hbare : Bare [slot]) :
    Fares (fun _ => True) (teardownSlot b p lexem slot) (teardownSlot b' p lexem slot) := by
  refine .bind .instances fun t _ => ?_
  rw [Slot.seek_bare lexem slot hbare, Slot.seek_bare lexem slot hbare, pure_bind, pure_bind]
  exact unmounting_fares _

theorem teardowns_fares (p : NodeId) {rs : List Rendered} (hbare : ∀ r ∈ rs, Bare r.slots) :
    Fares (fun _ => True) (rs.forM (teardown b p)) (rs.forM (teardown b' p)) :=
  .forM fun r hr => teardown_fares p (hbare r hr)

end Removing

mutual

/-- An argument as documents have them: a scalar, a list, or a sentence of some kind. -/
def Arg.Documented (S : Sentence → Prop) : Arg → Prop
  | .null | .bool _ | .number _ | .str _ => True
  | .sentence _ s => S s
  | .list _ items => ArgsDocumented S items
  | _ => False

def ArgsDocumented (S : Sentence → Prop) : List Arg → Prop
  | [] => True
  | a :: as => a.Documented S ∧ ArgsDocumented S as

end

section Documented

variable {S T : Sentence → Prop} {a : Arg} {as : List Arg} {lexem : Lexem}

theorem argsDocumented_iff : ArgsDocumented S as ↔ ∀ a ∈ as, a.Documented S := by
  induction as with
  | nil => simp [ArgsDocumented]
  | cons a as ih => simp [ArgsDocumented, ih]

mutual

theorem Arg.Documented.mono (hST : ∀ s, S s → T s) : ∀ {a : Arg}, a.Documented S → a.Documented T
  | .null, _ | .bool _, _ | .number _, _ | .str _, _ => trivial
  | .sentence _ s, h => hST s h
  | .list _ _, h => ArgsDocumented.mono hST h

theorem ArgsDocumented.mono (hST : ∀ s, S s → T s) : ∀ {as : List Arg}, ArgsDocumented S as → ArgsDocumented T as
  | [], _ => trivial
  | _ :: _, h => ⟨h.1.mono hST, ArgsDocumented.mono hST h.2⟩

end

theorem argAt_documented (h : ∀ a ∈ as, a.Documented S) (index : Nat) : (argAt as index).Documented S := by
  rw [argAt, List.getD_eq_getElem?_getD]
  cases hat : as[index]? with
  | none => trivial
  | some a => exact h a (List.mem_of_getElem? hat)

theorem Arg.Documented.items (h : a.Documented S) : ∀ item ∈ a.items, item.Documented S := by
  cases a with
  | list i items => exact argsDocumented_iff.mp h
  | _ => simp [Arg.items, Arg.asList?]

theorem Lexem.children_documented (h : ∀ a ∈ lexem.args, a.Documented S) :
    ∀ child ∈ lexem.children, child.Documented S := by
  have hlist := argAt_documented h 1
  unfold Lexem.children Lexem.arg
  split
  next heq =>
    rw [heq] at hlist
    exact argsDocumented_iff.mp hlist
  · simp
  · simpa using hlist

end Documented

/-- Those who carry out what is inside a lexem: whoever runs functions, and the passes one level deeper. -/
structure Crew (ω : Type) where
  behaviour : Behaviour ω
  render : Cursor → Phrase → Pass ω Rendered
  diff : Engine → Cursor → Phrase → Rendered → Pass ω Rendered

/-- Those who go no deeper than so many levels. -/
def Crew.within (b : Behaviour ω) (e : Engine) (depth : Nat) : Crew ω :=
  ⟨b, Engine.renderWithin b depth e, Engine.diffWithin b depth⟩

section Finishing

variable (k k' : Crew ω) (e : Engine)

/-- A sentence is rendered, and diffed against any bare output, alike by two crews, and that comes to an end. -/
structure Sentence.Finishes (s : Sentence) : Prop where
  render : ∀ c identity, Fares (fun r => Bare r.slots) (k.render c ⟨identity, s⟩) (k'.render c ⟨identity, s⟩)
  diff : ∀ c identity previous, Bare previous.slots →
    Fares (fun r => Bare r.slots) (k.diff e c ⟨identity, s⟩ previous) (k'.diff e c ⟨identity, s⟩ previous)

/-- The same for a lexem that is carried out as an instruction. -/
structure Lexem.FinishesAs (lexem : Lexem) (i : Instruction) : Prop where
  render : ∀ c, Fares (fun slot => Bare [slot]) (Engine.renderInstruction k.behaviour k.render e c lexem i)
    (Engine.renderInstruction k'.behaviour k'.render e c lexem i)
  diff : ∀ c index old slot, Bare [slot] →
    Fares (fun slot => Bare [slot]) (Engine.diffInstruction k.behaviour k.render k.diff e c index lexem old i slot)
      (Engine.diffInstruction k'.behaviour k'.render k'.diff e c index lexem old i slot)

/-- The same for a lexem. -/
structure Lexem.Finishes (lexem : Lexem) : Prop where
  render : ∀ c, Fares (fun slot => Bare [slot]) (Engine.renderLexem k.behaviour k.render e c lexem)
    (Engine.renderLexem k'.behaviour k'.render e c lexem)
  diff : ∀ c index old slot, Bare [slot] →
    Fares (fun slot => Bare [slot]) (Engine.diffLexem k.behaviour k.render k.diff e c index lexem old slot)
      (Engine.diffLexem k'.behaviour k'.render k'.diff e c index lexem old slot)

end Finishing

namespace Engine

variable {k k' : Crew ω} {e : Engine} {c : Cursor} {lexem old : Lexem} {slot : Slot} {index : Nat}

theorem incongruent_fares : Fares (fun slot => Bare [slot]) (Pass.ofExcept (lexem.incongruent old index) : Pass ω Slot)
    (Pass.ofExcept (lexem.incongruent old index)) :=
  (Fares.ofExcept (lexem.outward_incongruent old index)).mono fun _ h => by cases h

/-- A step that keeps the slot. -/
theorem keep_fares (hbare : Bare [slot]) {m m' : Pass ω Unit} (h : Fares (fun _ => True) m m') :
    Fares (fun slot => Bare [slot]) (m >>= fun _ => pure slot) (m' >>= fun _ => pure slot) :=
  h.bind fun _ _ => .pure hbare

theorem edit_fares (hbare : Bare [slot]) {x : Except PassError (Host → Host)} (hx : Outward x) :
    Fares (fun slot => Bare [slot]) (Pass.ofExcept x >>= fun f => Pass.edit f >>= fun _ => pure slot : Pass ω Slot)
      (Pass.ofExcept x >>= fun f => Pass.edit f >>= fun _ => pure slot) :=
  (Fares.ofExcept hx).bind fun f _ => keep_fares hbare (.edit f)

theorem nameNode_fares : Fares (fun _ => True) (nameNode c lexem : Pass ω Unit) (nameNode c lexem) := by
  unfold nameNode
  cases c.component with
  | none => exact .pure trivial
  | some id => exact .bind (.ofExcept (lexem.outward_stringArg 0)) fun _ _ => .editInstance _ _

theorem witness_fares (label : String) :
    Fares (fun _ => True) (Pass.witness e c label : Pass ω NodeId) (Pass.witness e c label) := .make fun _ => trivial

section Plain

variable {b b' : Behaviour ω} {S : Sentence → Prop} (hargs : ∀ a ∈ lexem.args, a.Documented S)
include hargs

/-- No render function is written in a document. -/
theorem eachPhrases_fares : Fares (fun _ => False) (eachPhrases b lexem) (eachPhrases b' lexem) := by
  have hrender : (lexem.arg 1).Documented S := argAt_documented hargs 1
  have hfails : Fares (fun _ => False) (Pass.ofExcept (lexem.invalid 1 "a render function") : Pass ω (List Phrase))
      (Pass.ofExcept (lexem.invalid 1 "a render function")) :=
    (Fares.ofExcept (lexem.outward_invalid 1 _)).mono fun _ h => by cases h
  have hitems : ∀ items : List Arg, Fares (fun _ => True) (pure items : Pass ω (List Arg)) (pure items) :=
    fun _ => .pure trivial
  unfold eachPhrases
  generalize lexem.arg 1 = second at hrender
  cases second
  case render => exact hrender.elim
  all_goals
    dsimp only
    split
    · exact (hitems _).bind fun _ _ => hfails
    · exact (hitems _).bind fun _ _ => hfails
    · exact .bind (.ofExcept (lexem.outward_invalid 0 _)) fun _ _ => hfails

theorem hookArg_fares : Fares (fun _ => False) (Pass.ofExcept lexem.hookArg : Pass ω Identity)
    (Pass.ofExcept lexem.hookArg) := by
  refine (Fares.ofExcept lexem.outward_hookArg).mono fun _ h => ?_
  have hhook : (lexem.arg 0).Documented S := argAt_documented hargs 0
  unfold Lexem.hookArg at h
  split at h
  next heq =>
    rw [heq] at hhook
    exact hhook
  · cases h

theorem componentArg_fares : Fares (fun _ => False) (Pass.ofExcept lexem.componentArg : Pass ω Factory)
    (Pass.ofExcept lexem.componentArg) := by
  refine (Fares.ofExcept lexem.outward_componentArg).mono fun _ h => ?_
  have hcomponent : (lexem.arg 0).Documented S := argAt_documented hargs 0
  unfold Lexem.componentArg at h
  split at h
  next heq =>
    rw [heq] at hcomponent
    exact hcomponent
  · cases h

theorem runCallback_fares : Fares (fun _ => False) (runCallback b lexem) (runCallback b' lexem) := by
  refine (Fares.ofExcept lexem.outward_callbackArg).bind fun _ h => ?_
  have hcallback : (lexem.arg 0).Documented S := argAt_documented hargs 0
  unfold Lexem.callbackArg at h
  split at h
  next heq =>
    rw [heq] at hcallback
    exact hcallback.elim
  · cases h

/-- Instructions that do not contain sentences have nothing to do with what is inside. -/
theorem plain_finishes (i : Instruction) (hi : i ∉ [.tag, .ifElse, .switchUse]) : lexem.FinishesAs k k' e i where
  render c := by
    have hattribute : Bare [.attribute] := .leaf nofun nofun rfl
    have heffect : Bare [.effect] := .leaf nofun nofun rfl
    cases i with
    | text =>
        unfold renderInstruction
        refine .make fun host => ?_
        exact (Bare.leaf nofun nofun rfl : Bare [.text host.next])
    | attr | data | style =>
        exact .bind (.ofExcept (lexem.outward_stringArg 0)) fun _ _ => keep_fares hattribute (.edit _)
    | prop =>
        exact .bind (.ofExcept (lexem.outward_stringArg 0)) fun _ _ =>
          .bind (.ofExcept (lexem.outward_scalarArg 1)) fun _ _ => keep_fares hattribute (.edit _)
    | cssClass =>
        unfold renderInstruction
        dsimp only
        split
        · exact keep_fares hattribute (.edit _)
        · exact .pure hattribute
    | classes | id => exact keep_fares hattribute (.edit _)
    | on =>
        exact .bind (.ofExcept (lexem.outward_stringArg 0)) fun _ _ => .bind (.ofExcept lexem.outward_listener) fun _ _ =>
          .bind (P := fun _ => True) (.make fun _ => trivial) fun _ _ => .pure (.leaf nofun nofun rfl)
    | each => exact (eachPhrases_fares hargs).bind fun _ h => h.elim
    | html =>
        exact .bind (P := fun _ => True) (.make fun _ => trivial) fun _ _ => (witness_fares _).bind fun _ _ =>
          .pure (.leaf nofun nofun rfl)
    | onDom => exact (hookArg_fares hargs).bind fun _ h => h.elim
    | execute => exact (runCallback_fares hargs).bind fun _ h => h.elim
    | ref => exact keep_fares heffect nameNode_fares
    | component => exact (componentArg_fares hargs).bind fun _ h => h.elim
    | tag | ifElse | switchUse => simp at hi
  diff c index old slot hslot := by
    cases i with
    | attr | data | style => exact edit_fares hslot (lexem.outward_diffEntry old _ _)
    | prop => exact edit_fares hslot (lexem.outward_diffProperty old _ _)
    | cssClass | classes => exact keep_fares hslot (.edit _)
    | id =>
        unfold diffInstruction
        dsimp only
        split
        · exact .pure hslot
        · exact keep_fares hslot (.edit _)
    | execute =>
        unfold diffInstruction
        dsimp only
        split
        · exact (runCallback_fares hargs).bind fun _ h => h.elim
        · exact .pure hslot
    | ref => exact keep_fares hslot nameNode_fares
    | text =>
        cases slot with
        | text n =>
            unfold diffInstruction
            dsimp only
            split
            · exact .pure hslot
            · exact keep_fares hslot (.edit _)
        | _ => exact incongruent_fares
    | on =>
        cases slot with
        | listener id =>
            refine .bind (.ofExcept (lexem.outward_stringArg 0)) fun _ _ =>
              .bind (.ofExcept (old.outward_stringArg 0)) fun _ _ => .bind (.ofExcept lexem.outward_listener) fun _ _ => ?_
            split
            · exact .bind (.edit _) fun _ _ => .bind (P := fun _ => True) (.make fun _ => trivial) fun _ _ =>
                .pure (.leaf nofun nofun rfl)
            · exact keep_fares hslot (.edit _)
        | _ => exact incongruent_fares
    | html =>
        cases slot with
        | raw w nodes =>
            unfold diffInstruction
            dsimp only
            split
            · exact .pure hslot
            · exact .bind (.edit _) fun _ _ => .bind (P := fun _ => True) (.make fun _ => trivial) fun _ _ =>
                .pure (.leaf nofun nofun rfl)
        | _ => exact incongruent_fares
    | each =>
        cases slot with
        | each w items => exact (eachPhrases_fares hargs).bind fun _ h => h.elim
        | _ => exact incongruent_fares
    | onDom =>
        cases slot with
        | hook node => exact absurd hslot Bare.not_hook
        | _ => exact incongruent_fares
    | component =>
        cases slot with
        | component id => exact absurd hslot Bare.not_component
        | _ => exact incongruent_fares
    | tag | ifElse | switchUse => simp at hi

end Plain

/-- What matching one by one gives back is bare: what is kept or new, and what is left over. -/
def MatchedBare (result : List Rendered × List Rendered) : Prop :=
  (∀ r ∈ result.1, Bare r.slots) ∧ ∀ r ∈ result.2, Bare r.slots

/-- One output after another, each followed by the rest of the list. -/
theorem matched_fares {m m' : Pass ω Rendered} {rest rest' : Pass ω (List Rendered × List Rendered)}
    (hm : Fares (fun r => Bare r.slots) m m') (hrest : Fares MatchedBare rest rest') :
    Fares MatchedBare (do
      let r ← m
      let (rs, rest) ← rest
      pure (r :: rs, rest)) (do
      let r ← m'
      let (rs, rest) ← rest'
      pure (r :: rs, rest)) :=
  hm.bind fun r hr => hrest.bind fun rs hrs => .pure ⟨by simpa using ⟨hr, hrs.1⟩, hrs.2⟩

section Tag

variable (hchildren : ∀ child ∈ lexem.children, ∀ phrase, e.childPhrase lexem child = .ok phrase →
  phrase.sentence.Finishes k k' e)
include hchildren

theorem renderTag_fares : Fares (fun slot => Bare [slot]) (renderTag k.render e c lexem)
    (renderTag k'.render e c lexem) := by
  refine .bind (.ofExcept (lexem.outward_stringArg 0)) fun tag _ =>
    .bind (P := fun _ => True) (.make fun _ => trivial) fun node _ => ?_
  refine .bind (.mapM (P := fun r => Bare r.slots) fun child hchild => ?_) fun kids hkids =>
    .pure (.part nofun nofun hkids)
  exact .bind (.ofExcept (e.outward_childPhrase lexem child)) fun phrase hphrase =>
    (hchildren child hchild phrase hphrase).render _ phrase.identity

theorem diffChildren_fares (children : List Arg) (hsub : ∀ child ∈ children, child ∈ lexem.children) :
    ∀ (oldChildren : List Arg) (olds : List Rendered), (∀ r ∈ olds, Bare r.slots) →
      Fares MatchedBare (diffChildren k.render k.diff e c lexem children oldChildren olds)
        (diffChildren k'.render k'.diff e c lexem children oldChildren olds) := by
  induction children with
  | nil => exact fun _ olds holds => .pure ⟨by simp, holds⟩
  | cons child children ih =>
      have hchild := hchildren child (hsub child List.mem_cons_self)
      have hrest := ih fun child hchild => hsub child (List.mem_cons_of_mem _ hchild)
      intro oldChildren olds holds
      cases olds with
      | nil =>
          exact .bind (.ofExcept (e.outward_childPhrase lexem child)) fun phrase hphrase =>
            matched_fares ((hchild phrase hphrase).render c phrase.identity) (hrest [] [] (by simp))
      | cons previous olds =>
          have hprevious := holds previous List.mem_cons_self
          have hnext := hrest oldChildren.tail olds fun r hr => holds r (List.mem_cons_of_mem _ hr)
          unfold diffChildren
          split
          · exact matched_fares (.pure hprevious) hnext
          · exact .bind (.ofExcept (e.outward_childPhrase lexem child)) fun phrase hphrase =>
              matched_fares ((hchild phrase hphrase).diff c phrase.identity previous hprevious) hnext

/-- A tag comes to an end if its children do. -/
theorem tag_finishes : lexem.FinishesAs k k' e .tag where
  render _ := renderTag_fares hchildren
  diff c index old slot hslot := by
    cases slot with
    | element element kids =>
        refine .bind (.ofExcept (lexem.outward_stringArg 0)) fun tag _ =>
          .bind (.ofExcept (old.outward_stringArg 0)) fun oldTag _ => ?_
        split
        · exact (renderTag_fares hchildren).bind fun slot hreplacement =>
            (teardownSlot_fares c.parent old hslot).bind fun _ _ => .pure hreplacement
        · exact (diffChildren_fares hchildren _ (fun _ h => h) _ kids hslot.inside).bind fun result hresult =>
            (teardowns_fares element hresult.2).bind fun _ _ => .pure (.part nofun nofun hresult.1)
    | _ => exact incongruent_fares

end Tag

section Branch

/-- What has been chosen comes to an end, if there is anything. -/
def Chosen (k k' : Crew ω) (e : Engine) (chosen : Option Phrase) : Prop :=
  ∀ phrase ∈ chosen, phrase.sentence.Finishes k k' e

variable {chosen : Option Phrase} (hchosen : Chosen k k' e chosen)
include hchosen

theorem renderBranch_fares (label : String) : Fares (fun slot => Bare [slot]) (renderBranch k.render e c label chosen)
    (renderBranch k'.render e c label chosen) := by
  have hlast : ∀ developed : Option Rendered, (∀ r ∈ developed, Bare r.slots) → Fares (fun slot => Bare [slot])
      (Pass.witness e c label >>= fun w => pure (.branch w developed) : Pass ω Slot)
      (Pass.witness e c label >>= fun w => pure (.branch w developed)) := fun developed hdeveloped =>
    (witness_fares label).bind fun w _ => .pure (.part nofun nofun (by simpa [Slot.parts] using hdeveloped))
  unfold renderBranch
  cases chosen with
  | none => exact hlast none (by simp)
  | some phrase =>
      exact ((hchosen phrase rfl).render c phrase.identity).bind fun r hr => hlast (some r) (by simpa using hr)

theorem diffBranch_fares {witness : NodeId} {developed : Option Rendered} (replace : Bool)
    (hbare : Bare [.branch witness developed]) : Fares (fun slot => Bare [slot])
      (diffBranch k.behaviour k.render k.diff e c witness chosen developed replace)
      (diffBranch k'.behaviour k'.render k'.diff e c witness chosen developed replace) := by
  have hdeveloped : ∀ r ∈ developed, Bare r.slots := fun r hr => hbare.inside r (by simpa [Slot.parts] using hr)
  have hremove : Fares (fun _ => True) (developed.forM (teardown k.behaviour c.parent))
      (developed.forM (teardown k'.behaviour c.parent)) := by
    cases developed with
    | none => exact .pure trivial
    | some r => exact teardown_fares c.parent (hdeveloped r rfl)
  have hcome : ∀ {m m' : Pass ω Rendered}, Fares (fun r => Bare r.slots) m m' → Fares (fun slot => Bare [slot])
      (m >>= fun r => pure (some r) >>= fun developed => pure (.branch witness developed))
      (m' >>= fun r => pure (some r) >>= fun developed => pure (.branch witness developed)) :=
    fun hm => hm.bind fun r hr => .pure (.part nofun nofun (by simpa [Slot.parts] using hr))
  unfold diffBranch
  cases chosen with
  | none => cases developed <;> exact hremove.bind fun _ _ => .pure (.leaf nofun nofun rfl)
  | some phrase =>
      have hnew : Fares (fun slot => Bare [slot])
          (developed.forM (teardown k.behaviour c.parent) >>= fun _ => k.render (c.before witness) phrase >>= fun r =>
            pure (some r) >>= fun developed => pure (.branch witness developed))
          (developed.forM (teardown k'.behaviour c.parent) >>= fun _ => k'.render (c.before witness) phrase >>= fun r =>
            pure (some r) >>= fun developed => pure (.branch witness developed)) :=
        hremove.bind fun _ _ => hcome ((hchosen phrase rfl).render _ phrase.identity)
      cases developed with
      | none => exact hnew
      | some previous =>
          cases replace with
          | true => exact hnew
          | false => exact hcome ((hchosen phrase rfl).diff _ phrase.identity previous (hdeveloped previous rfl))

end Branch

/-- An `if` chooses between sentences of its own, since no render function is written in a document. -/
theorem chosenPhrase_fares {b b' : Behaviour ω} (hargs : ∀ a ∈ lexem.args, a.Documented (Sentence.Finishes k k' e)) :
    Fares (Chosen k k' e) (chosenPhrase b lexem) (chosenPhrase b' lexem) := by
  unfold chosenPhrase
  dsimp only
  generalize (if (lexem.arg 0).isTruthy = true then 1 else 2) = index
  have hbranch : (lexem.arg index).Documented (Sentence.Finishes k k' e) := argAt_documented hargs index
  cases heq : lexem.arg index with
  | null => exact .pure (by simp [Chosen])
  | sentence identity s =>
      rw [heq] at hbranch
      refine .pure fun phrase hphrase => ?_
      cases hphrase
      exact hbranch
  | render =>
      rw [heq] at hbranch
      exact hbranch.elim
  | _ => exact (Fares.ofExcept (lexem.outward_invalid index _)).mono fun _ h => by cases h

theorem ifElse_finishes (hargs : ∀ a ∈ lexem.args, a.Documented (Sentence.Finishes k k' e)) :
    lexem.FinishesAs k k' e .ifElse where
  render _ := (chosenPhrase_fares hargs).bind fun _ hchosen => renderBranch_fares hchosen "if"
  diff c index old slot hslot := by
    cases slot with
    | branch w developed =>
        exact (chosenPhrase_fares hargs).bind fun _ hchosen => diffBranch_fares hchosen _ hslot
    | _ => exact incongruent_fares

/-- A `switchUse` comes to an end if what it names does. -/
theorem switchUse_finishes
    (hswitched : Fares (Chosen k k' e) (e.switchedPhrase k.behaviour lexem) (e.switchedPhrase k'.behaviour lexem)) :
    lexem.FinishesAs k k' e .switchUse where
  render _ := hswitched.bind fun _ hchosen => renderBranch_fares hchosen "switchUse"
  diff c index old slot hslot := by
    cases slot with
    | branch w developed =>
        unfold diffInstruction
        dsimp only
        split
        · exact hswitched.bind fun _ hchosen => diffBranch_fares hchosen _ hslot
        · exact .pure hslot
    | _ => exact incongruent_fares

/-- A lexem that is an instruction comes to an end as one. -/
theorem instruction_finishes {i : Instruction} (hinstruction : e.instruction? lexem = some i)
    (h : lexem.FinishesAs k k' e i) : lexem.Finishes k k' e where
  render c := by
    unfold renderLexem
    split
    · rw [hinstruction]
      exact h.render c
    · exact .pure (.leaf nofun nofun rfl)
  diff c index old slot hslot := by
    unfold diffLexem
    split
    · exact .pure hslot
    · rw [hinstruction]
      exact h.diff c index old slot hslot

/-- A compound comes to an end if its development does. -/
theorem compound_finishes (hinstruction : e.instruction? lexem = none)
    (hdevelop : Fares (Sentence.Finishes k k' e) (e.develop k.behaviour lexem) (e.develop k'.behaviour lexem)) :
    lexem.Finishes k k' e where
  render c := by
    unfold renderLexem
    split
    · rw [hinstruction]
      exact hdevelop.bind fun s hs => (hs.render c none).bind fun r hr =>
        .pure (.part nofun nofun (by simpa [Slot.parts] using hr))
    · exact .pure (.leaf nofun nofun rfl)
  diff c index old slot hslot := by
    unfold diffLexem
    split
    · exact .pure hslot
    · rw [hinstruction]
      dsimp only
      split
      next previous =>
        split
        · exact hdevelop.bind fun s hs => (hs.diff c none previous (hslot.inside previous (by simp [Slot.parts]))).bind
            fun r hr => .pure (.part nofun nofun (by simpa [Slot.parts] using hr))
        · exact .pure hslot
      · exact incongruent_fares

section Phrases

variable {b b' : Behaviour ω} {depth depth' : Nat}

theorem diffLexems_fares (lexems : List Lexem) (hlexems : ∀ lexem ∈ lexems, lexem.Finishes k k' e) :
    ∀ (index : Nat) (olds : List Lexem) (slots : List Slot), Bare slots →
      Fares Bare (diffLexems k.behaviour k.render k.diff e c index lexems olds slots)
        (diffLexems k'.behaviour k'.render k'.diff e c index lexems olds slots) := by
  induction lexems with
  | nil =>
      intro index olds slots _
      simp only [diffLexems]
      exact .pure .nil
  | cons lexem lexems ih =>
      intro index olds slots hslots
      cases olds with
      | nil =>
          simp only [diffLexems]
          exact .pure .nil
      | cons old olds =>
      cases slots with
      | nil =>
          simp only [diffLexems]
          exact .pure .nil
      | cons slot slots =>
          have hrest := ((hlexems lexem List.mem_cons_self).diff c index old slot hslots.first.1).bind fun slot hslot =>
            (ih (fun l hl => hlexems l (List.mem_cons_of_mem _ hl)) (index + 1) olds slots hslots.first.2).bind
              fun slots hslots => Fares.pure (P := Bare) (x := slot :: slots) (hslot.append hslots)
          unfold diffLexems
          dsimp only
          split
          · exact hrest
          · exact .bind (.ofExcept (lexem.outward_incongruent old index)) fun _ _ => hrest

/-- A sentence comes to an end one level further up if its lexems do. -/
theorem phrase_finishes {s : Sentence}
    (hlexems : ∀ lexem ∈ s.lexems, lexem.Finishes (.within b e depth) (.within b' e depth') e) :
    s.Finishes (.within b e (depth + 1)) (.within b' e (depth' + 1)) e where
  render c identity := by
    refine .bind (.mapM (P := fun slot => Bare [slot]) fun lexem hlexem => (hlexems lexem hlexem).render c)
      fun slots hslots => .pure ?_
    change Bare slots
    induction slots with
    | nil => exact .nil
    | cons slot slots ih =>
        exact (hslots slot List.mem_cons_self).append (ih fun slot hslot => hslots slot (List.mem_cons_of_mem _ hslot))
  diff c identity previous hbare := by
    change Fares _ (diffPhrase b _ _ e c ⟨identity, s⟩ previous) (diffPhrase b' _ _ e c ⟨identity, s⟩ previous)
    unfold diffPhrase
    split
    · exact .pure hbare
    · have hrest := (diffLexems_fares (c := c) s.lexems hlexems 0 previous.sentence.lexems previous.slots hbare).bind
        fun slots hslots => Fares.pure (P := fun r : Rendered => Bare r.slots) (x := ⟨identity, s, slots⟩) hslots
      dsimp only
      split
      · exact .bind (P := fun _ => True) (.fail id) fun _ _ => hrest
      · exact hrest

end Phrases

end Engine

end Parlance
