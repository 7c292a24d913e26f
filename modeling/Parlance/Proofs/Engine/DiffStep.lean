import Parlance.Engine.Diff
import Parlance.Proofs.Engine.RenderStep

/-! What a successful diff of one lexem has done, again with one case for each way in which it can go. Lists
of outputs are matched place by place, whether they are the items of a list or the children of a tag. -/

namespace Parlance

open Pass

/-- The change of a node that takes the entries of one word to those of another, if the word is one of those
that only put entries on their node and the arguments are in order. -/
def Engine.rewrite (e : Engine) (lexem old : Lexem) (node : NodeId) : Instruction → Option (Host → Host)
  | .attr => (lexem.diffEntry old (fun k v h => h.setAttribute node k v)
      fun k h => h.removeAttribute node k).toOption
  | .prop => (lexem.diffProperty old e.config.liveProperties node).toOption
  | .data => (lexem.diffEntry old (fun k v h => h.setDataset node k v)
      fun k h => h.removeDataset node k).toOption
  | .style => (lexem.diffEntry old (fun k v h => h.setStyle node k v) fun k h => h.removeStyle node k).toOption
  | .cssClass => some (lexem.diffClass old node)
  | .classes => some (lexem.diffClasses old node)
  | .id => some fun h => if (lexem.arg 0).same (old.arg 0) then h else h.setId node (lexem.arg 0).toText
  | _ => none

/-- Whether the output of a choice is rendered anew and not diffed. -/
def Lexem.flips (lexem old : Lexem) : Instruction → Bool
  | .ifElse => (lexem.arg 0).isTruthy != (old.arg 0).isTruthy
  | _ => !(lexem.arg 0).same (old.arg 0)

/-- Elements of a list, each with the one in its place in an older list. -/
def withFormer {α : Type} : List α → List α → List (α × Option α)
  | [], _ => []
  | a :: as, olds => (a, olds.head?) :: withFormer as olds.tail

namespace Engine

section Matching

variable {ω α : Type} (new : α → Stage ω → Rendered → Stage ω → Prop)
variable (kept : α → Rendered → Stage ω → Rendered → Stage ω → Prop)

/-- Outputs brought up to a list of things, place by place. What is past the end of the outputs is new, and
the outputs past the end of the list are left over. -/
inductive Matching : List α → List Rendered → Stage ω → List Rendered → List Rendered → Stage ω → Prop
  | rest {olds : List Rendered} {σ : Stage ω} : Matching [] olds σ [] olds σ
  | new {a : α} {as : List α} {r : Rendered} {rs rest : List Rendered} {σ σ₁ σ' : Stage ω}
      (head : new a σ r σ₁) (tail : Matching as [] σ₁ rs rest σ') :
      Matching (a :: as) [] σ (r :: rs) rest σ'
  | kept {a : α} {as : List α} {old r : Rendered} {olds rs rest : List Rendered} {σ σ₁ σ' : Stage ω}
      (head : kept a old σ r σ₁) (tail : Matching as olds σ₁ rs rest σ') :
      Matching (a :: as) (old :: olds) σ (r :: rs) rest σ'

end Matching

variable {ω : Type} (b : Behaviour ω)
variable (render : Cursor → Phrase → Pass ω Rendered)
variable (diff : Engine → Cursor → Phrase → Rendered → Pass ω Rendered)

/-- The items of a list brought up to new phrases. -/
def MatchItems (e : Engine) (c : Cursor) :
    List Phrase → List Rendered → Stage ω → List Rendered → List Rendered → Stage ω → Prop :=
  Matching (fun phrase σ r σ' => render c phrase σ = .ok r σ')
    fun phrase old σ r σ' => diff e c phrase old σ = .ok r σ'

/-- A child of a tag against its output: the same argument as before keeps it. -/
inductive ChildStep (e : Engine) (c : Cursor) (tag : Lexem) (child : Arg × Option Arg) (old : Rendered)
    (σ : Stage ω) : Rendered → Stage ω → Prop
  | same (hsame : child.2.any (·.same child.1) = true) : ChildStep e c tag child old σ old σ
  | diffed {phrase : Phrase} {r : Rendered} {σ' : Stage ω}
      (hphrase : e.childPhrase tag child.1 = .ok phrase)
      (hdiff : diff e c phrase old σ = .ok r σ') : ChildStep e c tag child old σ r σ'

/-- The children of a tag brought up to new ones. -/
def MatchChildren (e : Engine) (c : Cursor) (tag : Lexem) :
    List (Arg × Option Arg) → List Rendered → Stage ω → List Rendered → List Rendered → Stage ω → Prop :=
  Matching
    (fun child σ r σ' => ∃ phrase, e.childPhrase tag child.1 = .ok phrase ∧ render c phrase σ = .ok r σ')
    (ChildStep diff e c tag)

/-- What rendering a component again did. -/
inductive UpdateStep (id : InstanceId) (σ : Stage ω) : Stage ω → Prop
  | absent (habsent : σ.instances[id.index]? = none) : UpdateStep id σ σ
  | viewed {i : Instance} {previous next : Rendered} {s : Sentence} {w : ω} {σ' : Stage ω}
      (hpresent : σ.instances[id.index]? = some i) (hdeveloped : i.developed = some previous)
      (hview : b.view id σ.world = .ok s w)
      (hdiff : diff i.engine ⟨i.parent, i.witness, some id⟩ (.new s) previous
        ((σ.onInstance id fun i => { i with developed := none }).inWorld w) = .ok next σ') :
      UpdateStep id σ (σ'.onInstance id fun i => { i with developed := some next })

/-- Why a lexem keeps its slot without anything being looked at. -/
inductive Unchanged (e : Engine) (lexem old : Lexem) (σ : Stage ω) : Slot → Prop
  | foreign {slot : Slot} (hspace : e.isTarget lexem.space = false) : Unchanged e lexem old σ slot
  | bare {slot : Slot} (hargs : lexem.args = []) : Unchanged e lexem old σ slot
  | compound {r : Rendered} (hword : e.instruction? lexem = none)
      (hargs : lexem.argsChanged old = false) : Unchanged e lexem old σ (.compound r)
  | text {node : NodeId} (hword : e.instruction? lexem = some .text)
      (harg : (lexem.arg 0).same (old.arg 0) = true) : Unchanged e lexem old σ (.text node)
  | switch {witness : NodeId} {developed : Option Rendered}
      (hword : e.instruction? lexem = some .switchUse) (hargs : lexem.packedChanged old = false) :
      Unchanged e lexem old σ (.branch witness developed)
  | raw {witness : NodeId} {nodes : List NodeId} (hword : e.instruction? lexem = some .html)
      (harg : (lexem.arg 0).same (old.arg 0) = true) : Unchanged e lexem old σ (.raw witness nodes)
  | callback {slot : Slot} (hword : e.instruction? lexem = some .execute)
      (hargs : lexem.packedChanged old = false) : Unchanged e lexem old σ slot
  | component {id : InstanceId} {factory : Factory} (hword : e.instruction? lexem = some .component)
      (hfactory : lexem.componentArg = .ok factory)
      (htype : ∀ i, σ.instances[id.index]? = some i → i.factory.typeName = factory.typeName)
      (hprops : (lexem.arg 1).same (old.arg 1) = true) : Unchanged e lexem old σ (.component id)

/-- What diffing a lexem did to a stage, by the slot before and the slot after. -/
inductive DiffStep (e : Engine) (c : Cursor) (lexem old : Lexem) (σ : Stage ω) : Slot → Slot → Stage ω → Prop
  | kept {slot : Slot} (hkept : Unchanged e lexem old σ slot) : DiffStep e c lexem old σ slot slot σ
  | redeveloped {s : Sentence} {w : ω} {previous r : Rendered} {σ' : Stage ω}
      (hspace : e.isTarget lexem.space = true) (hword : e.instruction? lexem = none)
      (hargs : lexem.argsChanged old = true) (hdevelop : e.develop b lexem σ = .ok s (σ.inWorld w))
      (hdiff : diff e c (.new s) previous (σ.inWorld w) = .ok r σ') :
      DiffStep e c lexem old σ (.compound previous) (.compound r) σ'
  | rewritten {i : Instruction} {f : Host → Host} {slot : Slot}
      (hspace : e.isTarget lexem.space = true) (hargs : lexem.args ≠ [])
      (hword : e.instruction? lexem = some i)
      (hrewrite : e.rewrite lexem old c.parent i = some f) : DiffStep e c lexem old σ slot slot (σ.onHost f)
  | text {node : NodeId} (hspace : e.isTarget lexem.space = true)
      (hword : e.instruction? lexem = some .text) (harg : (lexem.arg 0).same (old.arg 0) = false) :
      DiffStep e c lexem old σ (.text node) (.text node) (σ.onHost (·.setText node (lexem.arg 0).toText))
  | retagged {node : NodeId} {kids : List Rendered} {tag oldTag : String} {slot : Slot} {σ₁ σ' : Stage ω}
      (hword : e.instruction? lexem = some .tag) (htag : lexem.stringArg 0 = .ok tag)
      (holdTag : old.stringArg 0 = .ok oldTag) (hne : tag ≠ oldTag)
      (hrender : RenderStep b render e (c.before node) lexem σ slot σ₁)
      (hremove : teardownSlot b c.parent old (.element node kids) σ₁ = .ok () σ') :
      DiffStep e c lexem old σ (.element node kids) slot σ'
  | tag {node : NodeId} {tag : String} {kids kids' rest : List Rendered} {σ₁ σ' : Stage ω}
      (hspace : e.isTarget lexem.space = true) (hword : e.instruction? lexem = some .tag)
      (htag : lexem.stringArg 0 = .ok tag) (holdTag : old.stringArg 0 = .ok tag)
      (hkids : MatchChildren render diff e (c.inside node) lexem
        (withFormer lexem.children old.children) kids σ kids' rest σ₁)
      (hrest : Sweep (teardown b node) rest σ₁ σ') :
      DiffStep e c lexem old σ (.element node kids) (.element node kids') σ'
  | moved {id : ListenerId} {event oldEvent : String} {listener : Listener}
      (hspace : e.isTarget lexem.space = true) (hword : e.instruction? lexem = some .on)
      (hevent : lexem.stringArg 0 = .ok event) (holdEvent : old.stringArg 0 = .ok oldEvent)
      (hne : event ≠ oldEvent) (hlistener : lexem.listener = .ok listener) :
      DiffStep e c lexem old σ (.listener id)
        (.listener ((σ.host.removeListener c.parent oldEvent id).addListener c.parent event listener).1)
        (σ.onHost fun h => ((h.removeListener c.parent oldEvent id).addListener c.parent event listener).2)
  | rebound {id : ListenerId} {event : String} {listener : Listener}
      (hspace : e.isTarget lexem.space = true) (hword : e.instruction? lexem = some .on)
      (hevent : lexem.stringArg 0 = .ok event) (holdEvent : old.stringArg 0 = .ok event)
      (hlistener : lexem.listener = .ok listener) :
      DiffStep e c lexem old σ (.listener id) (.listener id) (σ.onHost (·.rebind id listener))
  | branch {i : Instruction} {label : String} {m : Pass ω (Option Phrase)} {phrase : Phrase} {w : ω}
      {witness : NodeId} {previous r : Rendered} {σ' : Stage ω}
      (hspace : e.isTarget lexem.space = true) (hword : e.instruction? lexem = some i)
      (hchoice : e.choice b lexem i = some (label, m)) (hflips : lexem.flips old i = false)
      (hchosen : m σ = .ok (some phrase) (σ.inWorld w))
      (hdiff : diff e (c.before witness) phrase previous (σ.inWorld w) = .ok r σ') :
      DiffStep e c lexem old σ (.branch witness (some previous)) (.branch witness (some r)) σ'
  | flipped {i : Instruction} {label : String} {m : Pass ω (Option Phrase)} {chosen : Option Phrase} {w : ω}
      {witness : NodeId} {developed developed' : Option Rendered} {σ₁ σ' : Stage ω}
      (hspace : e.isTarget lexem.space = true) (hword : e.instruction? lexem = some i)
      (hchoice : e.choice b lexem i = some (label, m))
      (hflips : lexem.flips old i = true ∨ chosen = none ∨ developed = none)
      (hchosen : m σ = .ok chosen (σ.inWorld w))
      (hremove : Sweep (teardown b c.parent) developed.toList (σ.inWorld w) σ₁)
      (hinner : Chain (render (c.before witness)) chosen.toList σ₁ developed'.toList σ') :
      DiffStep e c lexem old σ (.branch witness developed) (.branch witness developed') σ'
  | each {phrases : List Phrase} {w : ω} {witness : NodeId} {items items' rest : List Rendered}
      {σ₁ σ' : Stage ω} (hspace : e.isTarget lexem.space = true)
      (hword : e.instruction? lexem = some .each)
      (hphrases : eachPhrases b lexem σ = .ok phrases (σ.inWorld w))
      (hitems : MatchItems render diff e (c.before witness) phrases items (σ.inWorld w) items' rest σ₁)
      (hrest : Sweep (teardown b c.parent) rest σ₁ σ') :
      DiffStep e c lexem old σ (.each witness items) (.each witness items') σ'
  | raw {witness : NodeId} {nodes : List NodeId} (hspace : e.isTarget lexem.space = true)
      (hword : e.instruction? lexem = some .html) (harg : (lexem.arg 0).same (old.arg 0) = false) :
      DiffStep e c lexem old σ (.raw witness nodes)
        (.raw witness ((nodes.foldl (fun h n => h.removeChild c.parent n) σ.host).insertRaw c.parent
          (lexem.arg 0).toText (some witness)).1)
        (σ.onHost fun h => ((nodes.foldl (fun h n => h.removeChild c.parent n) h).insertRaw c.parent
          (lexem.arg 0).toText (some witness)).2)
  | hook {node : NodeId} {hook : Identity} {h : Host} {w : ω} (hspace : e.isTarget lexem.space = true)
      (hword : e.instruction? lexem = some .onDom) (hhook : lexem.hookArg = .ok hook)
      (harg : (lexem.arg 0).same (old.arg 0) = true)
      (hcall : b.hookDiff hook node lexem.hookArgs old.hookArgs σ.host σ.world = .ok h w) :
      DiffStep e c lexem old σ (.hook node) (.hook node) ((σ.onHost fun _ => h).inWorld w)
  | rehooked {node : NodeId} {hook oldHook : Identity} {h₁ h₂ : Host} {w₁ w₂ : ω}
      (hspace : e.isTarget lexem.space = true)
      (hword : e.instruction? lexem = some .onDom) (hhook : lexem.hookArg = .ok hook)
      (holdHook : old.hookArg = .ok oldHook) (harg : (lexem.arg 0).same (old.arg 0) = false)
      (hremove : b.hookRemove oldHook node old.hookArgs σ.host σ.world = .ok h₁ w₁)
      (hcall : b.hookRender hook node lexem.hookArgs h₁ w₁ = .ok h₂ w₂) :
      DiffStep e c lexem old σ (.hook node) (.hook node) ((σ.onHost fun _ => h₂).inWorld w₂)
  | callback {slot : Slot} {callback : Identity} {w : ω} (hspace : e.isTarget lexem.space = true)
      (hword : e.instruction? lexem = some .execute) (hargs : lexem.packedChanged old = true)
      (hcallback : lexem.callbackArg = .ok callback)
      (hcall : b.callback callback (lexem.arg 1).items σ.world = .ok () w) :
      DiffStep e c lexem old σ slot slot (σ.inWorld w)
  | name {slot : Slot} {σ' : Stage ω} (hspace : e.isTarget lexem.space = true)
      (hword : e.instruction? lexem = some .ref)
      (hname : nameNode c lexem σ = .ok () σ') : DiffStep e c lexem old σ slot slot σ'
  | component {id : InstanceId} {factory : Factory} {w : ω} {σ' : Stage ω}
      (hspace : e.isTarget lexem.space = true) (hword : e.instruction? lexem = some .component)
      (hfactory : lexem.componentArg = .ok factory)
      (htype : ∀ i, σ.instances[id.index]? = some i → i.factory.typeName = factory.typeName)
      (hprops : (lexem.arg 1).same (old.arg 1) = false)
      (htold : b.lifecycle id (.setProps (lexem.arg 1)) σ.world = .ok () w)
      (hupdate : UpdateStep b diff id (σ.inWorld w) σ') :
      DiffStep e c lexem old σ (.component id) (.component id) σ'

/-- Diffing lexems one after the other. -/
inductive DiffSteps (e : Engine) (c : Cursor) :
    List Lexem → List Lexem → List Slot → Stage ω → List Slot → Stage ω → Prop
  | nil {σ : Stage ω} : DiffSteps e c [] [] [] σ [] σ
  | cons {lexem old : Lexem} {lexems olds : List Lexem} {slot slot' : Slot} {slots slots' : List Slot}
      {σ σ₁ σ' : Stage ω} (hcongruent : lexem.isCongruent old = true)
      (head : DiffStep b render diff e c lexem old σ slot slot' σ₁)
      (tail : DiffSteps e c lexems olds slots σ₁ slots' σ') :
      DiffSteps e c (lexem :: lexems) (old :: olds) (slot :: slots) σ (slot' :: slots') σ'

variable {b render diff} {e : Engine} {c : Cursor} {lexem old : Lexem} {σ σ' : Stage ω}

theorem diffItems_cons {phrase : Phrase} {phrases : List Phrase} {old : Rendered} {olds items rest : List Rendered}
    (h : diffItems render diff e c (phrase :: phrases) (old :: olds) σ = .ok (items, rest) σ') :
    ∃ r σ₁ rs, diff e c phrase old σ = .ok r σ₁ ∧ diffItems render diff e c phrases olds σ₁ = .ok (rs, rest) σ' ∧
      items = r :: rs := by
  simp only [diffItems, bind_eq_ok, pure_eq_ok, Prod.mk.injEq] at h
  obtain ⟨r, σ₁, hr, ⟨rs, rest'⟩, _, hrs, ⟨rfl, rfl⟩, rfl⟩ := h
  exact ⟨r, σ₁, rs, hr, hrs, rfl⟩

theorem diffItems_ok {phrases : List Phrase} {olds items rest : List Rendered}
    (h : diffItems render diff e c phrases olds σ = .ok (items, rest) σ') :
    MatchItems render diff e c phrases olds σ items rest σ' := by
  induction phrases generalizing olds items σ with
  | nil =>
      simp only [diffItems, pure_eq_ok, Prod.mk.injEq] at h
      obtain ⟨⟨rfl, rfl⟩, rfl⟩ := h
      exact .rest
  | cons p ps ih =>
      cases olds with
      | nil =>
          simp only [diffItems, bind_eq_ok, pure_eq_ok, Prod.mk.injEq] at h
          obtain ⟨r, _, hr, ⟨rs, rest'⟩, _, hrs, ⟨rfl, rfl⟩, rfl⟩ := h
          exact .new hr (ih hrs)
      | cons old olds =>
          obtain ⟨r, _, rs, hr, hrs, rfl⟩ := diffItems_cons h
          exact .kept hr (ih hrs)

/-- Children past the end of the outputs are rendered, whatever stood in their place before. -/
theorem MatchChildren.of_new {tag : Lexem} {children olds olds' : List Arg} {kids rest : List Rendered}
    (h : MatchChildren render diff e c tag (withFormer children olds) [] σ kids rest σ') :
    MatchChildren render diff e c tag (withFormer children olds') [] σ kids rest σ' := by
  induction children generalizing olds olds' kids σ with
  | nil => exact h
  | cons child children ih =>
      cases h with
      | new head tail => exact .new head (ih tail)

theorem diffChildren_ok {tag : Lexem} {children oldChildren : List Arg} {olds kids rest : List Rendered}
    (h : diffChildren render diff e c tag children oldChildren olds σ = .ok (kids, rest) σ') :
    MatchChildren render diff e c tag (withFormer children oldChildren) olds σ kids rest σ' := by
  induction children generalizing oldChildren olds kids σ with
  | nil =>
      simp only [diffChildren, pure_eq_ok, Prod.mk.injEq] at h
      obtain ⟨⟨rfl, rfl⟩, rfl⟩ := h
      exact .rest
  | cons child children ih =>
      cases olds with
      | nil =>
          simp only [diffChildren, bind_eq_ok, ofExcept_eq_ok, pure_eq_ok, Prod.mk.injEq] at h
          obtain ⟨phrase, _, ⟨hphrase, rfl⟩, r, _, hr, ⟨rs, rest'⟩, _, hrs, ⟨rfl, rfl⟩, rfl⟩ := h
          exact .new ⟨phrase, hphrase, hr⟩ (ih hrs).of_new
      | cons old olds =>
          by_cases hsame : oldChildren.head?.any (·.same child) = true
          · simp only [diffChildren, if_pos hsame, bind_eq_ok, pure_eq_ok, Prod.mk.injEq] at h
            obtain ⟨_, _, ⟨rfl, rfl⟩, ⟨rs, rest'⟩, _, hrs, ⟨rfl, rfl⟩, rfl⟩ := h
            exact .kept (.same hsame) (ih hrs)
          · simp only [diffChildren, if_neg hsame, bind_eq_ok, ofExcept_eq_ok, pure_eq_ok, Prod.mk.injEq] at h
            obtain ⟨phrase, _, ⟨hphrase, rfl⟩, r, _, hr, ⟨rs, rest'⟩, _, hrs, ⟨rfl, rfl⟩, rfl⟩ := h
            exact .kept (.diffed hphrase hr) (ih hrs)

theorem diffTag_ok {node : NodeId} {kids : List Rendered} {slot : Slot}
    (hspace : e.isTarget lexem.space = true) (hword : e.instruction? lexem = some .tag)
    (h : diffTag b render diff e c lexem old node kids σ = .ok slot σ') :
    DiffStep b render diff e c lexem old σ (.element node kids) slot σ' := by
  unfold diffTag at h
  simp only [bind_eq_ok, ofExcept_eq_ok] at h
  obtain ⟨tag, _, ⟨htag, rfl⟩, oldTag, _, ⟨holdTag, rfl⟩, h⟩ := h
  by_cases hne : tag ≠ oldTag
  · simp only [if_pos hne, bind_eq_ok, pure_eq_ok] at h
    obtain ⟨replacement, σ₁, hrender, _, _, hremove, rfl, rfl⟩ := h
    have hstep := renderInstruction_step (b := b) hspace hword hrender
    exact .retagged hword htag holdTag hne hstep hremove
  · rw [if_neg hne] at h
    replace hne := Decidable.not_not.mp hne
    subst hne
    simp only [bind_eq_ok, pure_eq_ok] at h
    obtain ⟨⟨kids', rest⟩, σ₁, hkids, _, _, hrest, rfl, rfl⟩ := h
    exact .tag hspace hword htag holdTag (diffChildren_ok hkids) (forM_eq_ok.mp hrest)

theorem diffBranch_ok {i : Instruction} {label : String} {m : Pass ω (Option Phrase)}
    {chosen : Option Phrase} {w : ω} {witness : NodeId} {developed : Option Rendered} {slot : Slot}
    (hspace : e.isTarget lexem.space = true) (hword : e.instruction? lexem = some i)
    (hchoice : e.choice b lexem i = some (label, m)) (hchosen : m σ = .ok chosen (σ.inWorld w))
    (h : diffBranch b render diff e c witness chosen developed (lexem.flips old i) (σ.inWorld w) =
      .ok slot σ') :
    DiffStep b render diff e c lexem old σ (.branch witness developed) slot σ' := by
  unfold diffBranch at h
  cases chosen with
  | none =>
      have hremoved : (developed.forM (Pass.teardown b c.parent) >>= fun _ => pure none >>= fun developed =>
          pure (Slot.branch witness developed) : Pass ω Slot) (σ.inWorld w) = .ok slot σ' := by
        cases developed <;> exact h
      simp only [bind_eq_ok, optionForM_eq_ok, pure_eq_ok] at hremoved
      obtain ⟨_, _, hremove, _, _, ⟨rfl, rfl⟩, rfl, rfl⟩ := hremoved
      exact .flipped hspace hword hchoice (.inr (.inl rfl)) hchosen hremove .nil
  | some phrase =>
      have hflipped : (lexem.flips old i = true ∨ developed = none) →
          (developed.forM (Pass.teardown b c.parent) >>= fun _ => render (c.before witness) phrase >>= fun r =>
            pure (some r) >>= fun developed => pure (Slot.branch witness developed) : Pass ω Slot)
              (σ.inWorld w) = .ok slot σ' →
          DiffStep b render diff e c lexem old σ (.branch witness developed) slot σ' := by
        intro hflips h
        simp only [bind_eq_ok, optionForM_eq_ok, pure_eq_ok] at h
        obtain ⟨_, _, hremove, r, _, hr, _, _, ⟨rfl, rfl⟩, rfl, rfl⟩ := h
        have hinner : Chain (render (c.before witness)) (some phrase).toList _ (some r).toList _ :=
          .cons hr .nil
        exact .flipped hspace hword hchoice (hflips.imp_right .inr) hchosen hremove hinner
      cases developed with
      | none => exact hflipped (.inr rfl) h
      | some previous =>
          cases hflips : lexem.flips old i with
          | true =>
              rw [hflips] at h
              exact hflipped (.inl hflips) h
          | false =>
              simp only [hflips, bind_eq_ok, pure_eq_ok] at h
              obtain ⟨r, _, hr, _, _, ⟨rfl, rfl⟩, rfl, rfl⟩ := h
              exact .branch hspace hword hchoice hflips hchosen hr

theorem update_ok {id : InstanceId} (h : update b diff id σ = .ok () σ') : UpdateStep b diff id σ σ' := by
  simp only [update, bind_eq_ok, instances_eq_ok] at h
  obtain ⟨_, _, ⟨rfl, rfl⟩, h⟩ := h
  cases hpresent : σ.instances[id.index]? with
  | none =>
      rw [hpresent] at h
      obtain ⟨-, rfl⟩ := pure_eq_ok.mp h
      exact .absent hpresent
  | some i =>
      cases hdeveloped : i.developed with
      | none =>
          simp only [hpresent, hdeveloped] at h
          exact (fail_eq_ok.mp h).elim
      | some previous =>
          simp only [hpresent, hdeveloped, bind_eq_ok, editInstance_eq_ok, act_eq_ok] at h
          obtain ⟨_, _, rfl, s, _, ⟨w, hview, rfl⟩, next, σ₁, hdiff, rfl⟩ := h
          exact .viewed hpresent hdeveloped hview hdiff

theorem diffComponent_ok {id : InstanceId} {slot : Slot}
    (hspace : e.isTarget lexem.space = true) (hword : e.instruction? lexem = some .component)
    (h : diffComponent b diff lexem old id σ = .ok slot σ') :
    DiffStep b render diff e c lexem old σ (.component id) slot σ' := by
  simp only [diffComponent, bind_eq_ok, ofExcept_eq_ok, instances_eq_ok] at h
  obtain ⟨factory, _, ⟨hfactory, rfl⟩, _, _, ⟨rfl, rfl⟩, h⟩ := h
  have hrest : ∀ (htype : ∀ i, σ.instances[id.index]? = some i → i.factory.typeName = factory.typeName),
      (do
        if (lexem.arg 1).same (old.arg 1) then pure (.component id)
        else
          Pass.act (b.lifecycle id (.setProps (lexem.arg 1)))
          update b diff id
          pure (.component id) : Pass ω Slot) σ = .ok slot σ' →
      DiffStep b render diff e c lexem old σ (.component id) slot σ' := by
    intro htype h
    cases hprops : (lexem.arg 1).same (old.arg 1) with
    | true =>
        rw [hprops, if_pos rfl] at h
        obtain ⟨rfl, rfl⟩ := pure_eq_ok.mp h
        exact .kept (.component hword hfactory htype hprops)
    | false =>
        simp only [hprops, Bool.false_eq_true, if_false, bind_eq_ok, act_eq_ok, pure_eq_ok] at h
        obtain ⟨_, _, ⟨w, htold, rfl⟩, _, _, hupdate, rfl, rfl⟩ := h
        exact .component hspace hword hfactory htype hprops htold (update_ok hupdate)
  cases hpresent : σ.instances[id.index]? with
  | none =>
      rw [hpresent] at h
      exact hrest (by simp [hpresent]) h
  | some i =>
      rw [hpresent] at h
      by_cases hne : i.factory.typeName ≠ factory.typeName
      · simp only [if_pos hne, bind_eq_ok] at h
        obtain ⟨_, _, hfail, _⟩ := h
        exact (fail_eq_ok.mp hfail).elim
      · simp only [if_neg hne] at h
        replace hne := Decidable.not_not.mp hne
        exact hrest (by rw [hpresent]; rintro _ ⟨⟩; exact hne) h

theorem diffListener_ok {id : ListenerId} {slot : Slot}
    (hspace : e.isTarget lexem.space = true) (hword : e.instruction? lexem = some .on)
    (h : diffListener c lexem old id σ = .ok slot σ') :
    DiffStep b render diff e c lexem old σ (.listener id) slot σ' := by
  simp only [diffListener, bind_eq_ok, ofExcept_eq_ok] at h
  obtain ⟨event, _, ⟨hevent, rfl⟩, oldEvent, _, ⟨holdEvent, rfl⟩, listener, _, ⟨hlistener, rfl⟩, h⟩ := h
  by_cases hne : event ≠ oldEvent
  · simp only [if_pos hne, bind_eq_ok, edit_eq_ok, make_eq_ok, pure_eq_ok] at h
    obtain ⟨_, _, rfl, _, _, ⟨rfl, rfl⟩, rfl, rfl⟩ := h
    exact .moved hspace hword hevent holdEvent hne hlistener
  · simp only [if_neg hne, bind_eq_ok, edit_eq_ok, pure_eq_ok] at h
    replace hne := Decidable.not_not.mp hne
    subst hne
    obtain ⟨_, _, rfl, rfl, rfl⟩ := h
    exact .rebound hspace hword hevent holdEvent hlistener

theorem diffHook_ok {node : NodeId} {slot : Slot}
    (hspace : e.isTarget lexem.space = true) (hword : e.instruction? lexem = some .onDom)
    (h : diffHook b lexem old node σ = .ok slot σ') :
    DiffStep b render diff e c lexem old σ (.hook node) slot σ' := by
  simp only [diffHook, bind_eq_ok, ofExcept_eq_ok] at h
  obtain ⟨hook, _, ⟨hhook, rfl⟩, oldHook, _, ⟨holdHook, rfl⟩, h⟩ := h
  cases harg : (lexem.arg 0).same (old.arg 0) with
  | true =>
      simp only [harg, if_true, bind_eq_ok, actOnHost_eq_ok, pure_eq_ok] at h
      obtain ⟨_, _, ⟨h', w, hcall, rfl⟩, rfl, rfl⟩ := h
      exact .hook hspace hword hhook harg hcall
  | false =>
      simp only [harg, Bool.false_eq_true, if_false, bind_eq_ok, actOnHost_eq_ok, pure_eq_ok] at h
      obtain ⟨_, _, ⟨h₁, w₁, hremove, rfl⟩, _, _, ⟨h₂, w₂, hcall, rfl⟩, rfl, rfl⟩ := h
      exact .rehooked hspace hword hhook holdHook harg hremove hcall

/-- A word that only puts entries on its node rewrites them there. -/
theorem diffInstruction_rewrites {i : Instruction} {index : Nat} {slot slot' : Slot}
    (hi : i ∈ [Instruction.attr, .prop, .data, .style, .cssClass, .classes, .id])
    (h : diffInstruction b render diff e c index lexem old i slot σ = .ok slot' σ') :
    ∃ f, e.rewrite lexem old c.parent i = some f ∧ slot' = slot ∧ σ' = σ.onHost f := by
  simp only [List.mem_cons, List.not_mem_nil, or_false] at hi
  rcases hi with rfl | rfl | rfl | rfl | rfl | rfl | rfl
  all_goals simp only [diffInstruction, bind_eq_ok, ofExcept_eq_ok, edit_eq_ok, pure_eq_ok] at h
  · obtain ⟨f, _, ⟨hf, rfl⟩, _, _, rfl, rfl, rfl⟩ := h
    exact ⟨f, by simp only [rewrite, hf]; rfl, rfl, rfl⟩
  · obtain ⟨f, _, ⟨hf, rfl⟩, _, _, rfl, rfl, rfl⟩ := h
    exact ⟨f, by simp only [rewrite, hf]; rfl, rfl, rfl⟩
  · obtain ⟨f, _, ⟨hf, rfl⟩, _, _, rfl, rfl, rfl⟩ := h
    exact ⟨f, by simp only [rewrite, hf]; rfl, rfl, rfl⟩
  · obtain ⟨f, _, ⟨hf, rfl⟩, _, _, rfl, rfl, rfl⟩ := h
    exact ⟨f, by simp only [rewrite, hf]; rfl, rfl, rfl⟩
  · obtain ⟨_, _, rfl, rfl, rfl⟩ := h
    exact ⟨_, rfl, rfl, rfl⟩
  · obtain ⟨_, _, rfl, rfl, rfl⟩ := h
    exact ⟨_, rfl, rfl, rfl⟩
  · refine ⟨_, rfl, ?_⟩
    cases harg : (lexem.arg 0).same (old.arg 0) with
    | true =>
        simp only [harg, if_true, pure_eq_ok] at h
        exact ⟨h.1.symm, h.2.symm⟩
    | false =>
        simp only [harg, Bool.false_eq_true, if_false, bind_eq_ok, edit_eq_ok, pure_eq_ok] at h
        obtain ⟨_, _, rfl, rfl, rfl⟩ := h
        exact ⟨rfl, rfl⟩

theorem diffInstruction_step {i : Instruction} {index : Nat} {slot slot' : Slot}
    (hspace : e.isTarget lexem.space = true) (hargs : lexem.args ≠ [])
    (hword : e.instruction? lexem = some i)
    (h : diffInstruction b render diff e c index lexem old i slot σ = .ok slot' σ') :
    DiffStep b render diff e c lexem old σ slot slot' σ' := by
  by_cases hi : i ∈ [Instruction.attr, .prop, .data, .style, .cssClass, .classes, .id]
  · obtain ⟨f, hf, rfl, rfl⟩ := diffInstruction_rewrites hi h
    exact .rewritten hspace hargs hword hf
  have hincongruent : ∀ {slot' : Slot},
      (ofExcept (lexem.incongruent old index) : Pass ω Slot) σ = .ok slot' σ' → False := by
    intro slot' h
    cases (ofExcept_eq_ok.mp h).1
  cases i with
  | attr | prop | data | style | cssClass | classes | id => simp at hi
  | execute =>
      cases hpacked : lexem.packedChanged old with
      | false =>
          simp only [diffInstruction, hpacked, Bool.false_eq_true, if_false, pure_eq_ok] at h
          obtain ⟨rfl, rfl⟩ := h
          exact .kept (.callback hword hpacked)
      | true =>
          simp only [diffInstruction, hpacked, if_true, runCallback, bind_eq_ok, ofExcept_eq_ok, act_eq_ok,
            pure_eq_ok] at h
          obtain ⟨_, _, ⟨callback, _, ⟨hcallback, rfl⟩, w, hcall, rfl⟩, rfl, rfl⟩ := h
          exact .callback hspace hword hpacked hcallback hcall
  | ref =>
      simp only [diffInstruction, bind_eq_ok, pure_eq_ok] at h
      obtain ⟨_, _, hname, rfl, rfl⟩ := h
      exact .name hspace hword hname
  | tag =>
      cases slot with
      | element node kids => exact diffTag_ok hspace hword h
      | _ => exact (hincongruent h).elim
  | text =>
      cases slot with
      | text node =>
          cases harg : (lexem.arg 0).same (old.arg 0) with
          | true =>
              simp only [diffInstruction, harg, if_true, pure_eq_ok] at h
              obtain ⟨rfl, rfl⟩ := h
              exact .kept (.text hword harg)
          | false =>
              simp only [diffInstruction, harg, Bool.false_eq_true, if_false, bind_eq_ok, edit_eq_ok,
                pure_eq_ok] at h
              obtain ⟨_, _, rfl, rfl, rfl⟩ := h
              exact .text hspace hword harg
      | _ => exact (hincongruent h).elim
  | on =>
      cases slot with
      | listener id => exact diffListener_ok hspace hword h
      | _ => exact (hincongruent h).elim
  | ifElse =>
      cases slot with
      | branch witness developed =>
          simp only [diffInstruction, bind_eq_ok] at h
          obtain ⟨chosen, _, hchosen, h⟩ := h
          obtain ⟨w, rfl, -⟩ := chosenPhrase_inWorld hchosen
          exact diffBranch_ok hspace hword rfl hchosen h
      | _ => exact (hincongruent h).elim
  | switchUse =>
      cases slot with
      | branch witness developed =>
          cases hpacked : lexem.packedChanged old with
          | false =>
              simp only [diffInstruction, hpacked, Bool.false_eq_true, if_false, pure_eq_ok] at h
              obtain ⟨rfl, rfl⟩ := h
              exact .kept (.switch hword hpacked)
          | true =>
              simp only [diffInstruction, hpacked, if_true, bind_eq_ok] at h
              obtain ⟨chosen, _, hchosen, h⟩ := h
              obtain ⟨w, rfl, -⟩ := switchedPhrase_inWorld hchosen
              exact diffBranch_ok hspace hword rfl hchosen h
      | _ => exact (hincongruent h).elim
  | each =>
      cases slot with
      | each witness items =>
          simp only [diffInstruction, bind_eq_ok, pure_eq_ok] at h
          obtain ⟨phrases, _, hphrases, ⟨items', rest⟩, σ₁, hitems, _, _, hrest, rfl, rfl⟩ := h
          obtain ⟨w, rfl, -⟩ := eachPhrases_inWorld hphrases
          exact .each hspace hword hphrases (diffItems_ok hitems) (forM_eq_ok.mp hrest)
      | _ => exact (hincongruent h).elim
  | html =>
      cases slot with
      | raw witness nodes =>
          cases harg : (lexem.arg 0).same (old.arg 0) with
          | true =>
              simp only [diffInstruction, harg, if_true, pure_eq_ok] at h
              obtain ⟨rfl, rfl⟩ := h
              exact .kept (.raw hword harg)
          | false =>
              simp only [diffInstruction, harg, Bool.false_eq_true, if_false, bind_eq_ok, edit_eq_ok,
                make_eq_ok, pure_eq_ok] at h
              obtain ⟨_, _, rfl, _, _, ⟨rfl, rfl⟩, rfl, rfl⟩ := h
              exact .raw hspace hword harg
      | _ => exact (hincongruent h).elim
  | onDom =>
      cases slot with
      | hook node => exact diffHook_ok hspace hword h
      | _ => exact (hincongruent h).elim
  | component =>
      cases slot with
      | component id => exact diffComponent_ok hspace hword h
      | _ => exact (hincongruent h).elim

/-- Diffing a lexem that succeeds is one of the steps. -/
theorem diffLexem_step {index : Nat} {slot slot' : Slot}
    (h : diffLexem b render diff e c index lexem old slot σ = .ok slot' σ') :
    DiffStep b render diff e c lexem old σ slot slot' σ' := by
  unfold diffLexem at h
  cases hspace : e.isTarget lexem.space with
  | false =>
      rw [hspace, Bool.not_false, Bool.true_or, if_pos rfl] at h
      obtain ⟨rfl, rfl⟩ := pure_eq_ok.mp h
      exact .kept (.foreign hspace)
  | true =>
      by_cases hargs : lexem.args = []
      · rw [hargs, List.isEmpty_nil, Bool.or_true, if_pos rfl] at h
        obtain ⟨rfl, rfl⟩ := pure_eq_ok.mp h
        exact .kept (.bare hargs)
      rw [hspace, if_neg (by simpa using hargs)] at h
      cases hword : e.instruction? lexem with
      | some i =>
          rw [hword] at h
          exact diffInstruction_step hspace hargs hword h
      | none =>
          rw [hword] at h
          cases slot with
          | compound previous =>
              cases hchanged : lexem.argsChanged old with
              | false =>
                  simp only [hchanged, Bool.false_eq_true, if_false, pure_eq_ok] at h
                  obtain ⟨rfl, rfl⟩ := h
                  exact .kept (.compound hword hchanged)
              | true =>
                  simp only [hchanged, if_true, bind_eq_ok, pure_eq_ok] at h
                  obtain ⟨s, _, hdevelop, r, _, hdiff, rfl, rfl⟩ := h
                  obtain ⟨w, rfl, -⟩ := develop_inWorld hdevelop
                  exact .redeveloped hspace hword hchanged hdevelop hdiff
          | _ => cases (ofExcept_eq_ok.mp h).1

/-- The first lexems are congruent and are diffed, and then the others. -/
theorem diffLexems_cons {index : Nat} {lexems olds : List Lexem} {slot : Slot} {slots slots' : List Slot}
    (h : diffLexems b render diff e c index (lexem :: lexems) (old :: olds) (slot :: slots) σ = .ok slots' σ') :
    lexem.isCongruent old = true ∧ ∃ slot' σ₁ rest,
      diffLexem b render diff e c index lexem old slot σ = .ok slot' σ₁ ∧
      diffLexems b render diff e c (index + 1) lexems olds slots σ₁ = .ok rest σ' ∧ slots' = slot' :: rest := by
  cases hcongruent : lexem.isCongruent old with
  | false =>
      simp only [diffLexems, hcongruent, Bool.false_eq_true, if_false, bind_eq_ok] at h
      obtain ⟨_, _, hfail, _⟩ := h
      cases (ofExcept_eq_ok.mp hfail).1
  | true =>
      simp only [diffLexems, hcongruent, if_true, bind_eq_ok, pure_eq_ok] at h
      obtain ⟨slot', σ₁, hhead, rest, _, htail, rfl, rfl⟩ := h
      exact ⟨rfl, slot', σ₁, rest, hhead, htail, rfl⟩

theorem diffLexems_ok {index : Nat} {lexems olds : List Lexem} {slots slots' : List Slot}
    (hlexems : lexems.length = olds.length) (hslots : slots.length = olds.length)
    (h : diffLexems b render diff e c index lexems olds slots σ = .ok slots' σ') :
    DiffSteps b render diff e c lexems olds slots σ slots' σ' := by
  induction olds generalizing index lexems slots slots' σ with
  | nil =>
      rw [List.length_nil, List.length_eq_zero_iff] at hlexems hslots
      subst hlexems hslots
      obtain ⟨rfl, rfl⟩ := pure_eq_ok.mp h
      exact .nil
  | cons old olds ih =>
      cases lexems with
      | nil => simp at hlexems
      | cons lexem lexems =>
          cases slots with
          | nil => simp at hslots
          | cons slot slots =>
              obtain ⟨hcongruent, slot', σ₁, slots', hhead, htail, rfl⟩ := diffLexems_cons h
              exact .cons hcongruent (diffLexem_step hhead) (ih (by simpa using hlexems) (by simpa using hslots) htail)

/-- A diff that does not give back what it was given goes through all of the lexems. -/
theorem diffPhrase_diffs {phrase : Phrase} {previous r : Rendered} (hreuses : e.reuses phrase previous = false)
    (h : diffPhrase b render diff e c phrase previous σ = .ok r σ') :
    phrase.sentence.lexems.length = previous.sentence.lexems.length ∧ ∃ slots,
      r = ⟨phrase.identity, phrase.sentence, slots⟩ ∧
      diffLexems b render diff e c 0 phrase.sentence.lexems previous.sentence.lexems previous.slots σ =
        .ok slots σ' := by
  unfold diffPhrase at h
  rw [hreuses, if_neg Bool.false_ne_true] at h
  by_cases hlength : phrase.sentence.length ≠ previous.sentence.length
  · simp only [if_pos hlength, bind_eq_ok] at h
    obtain ⟨_, _, hfail, _⟩ := h
    exact (fail_eq_ok.mp hfail).elim
  · simp only [if_neg hlength, bind_eq_ok, pure_eq_ok] at h
    obtain ⟨slots, _, hlexems, rfl, rfl⟩ := h
    exact ⟨Decidable.not_not.mp hlength, slots, rfl, hlexems⟩

/-- A diff gives back the very output that it was given, or goes through all of the lexems. -/
theorem diffPhrase_ok {phrase : Phrase} {previous r : Rendered}
    (hslots : previous.slots.length = previous.sentence.lexems.length)
    (h : diffPhrase b render diff e c phrase previous σ = .ok r σ') :
    (e.reuses phrase previous = true ∧ r = previous ∧ σ' = σ) ∨
    (e.reuses phrase previous = false ∧ ∃ slots, r = ⟨phrase.identity, phrase.sentence, slots⟩ ∧
      DiffSteps b render diff e c phrase.sentence.lexems previous.sentence.lexems previous.slots σ
        slots σ') := by
  cases hreuses : e.reuses phrase previous with
  | true =>
      unfold diffPhrase at h
      rw [hreuses, if_pos rfl] at h
      obtain ⟨rfl, rfl⟩ := pure_eq_ok.mp h
      exact .inl ⟨rfl, rfl, rfl⟩
  | false =>
      obtain ⟨hlength, slots, rfl, hlexems⟩ := diffPhrase_diffs hreuses h
      exact .inr ⟨rfl, slots, rfl, diffLexems_ok hlength hslots hlexems⟩

theorem DiffSteps.length_eq {lexems olds : List Lexem} {slots slots' : List Slot}
    (h : DiffSteps b render diff e c lexems olds slots σ slots' σ') : slots'.length = lexems.length := by
  induction h with
  | nil => rfl
  | cons _ _ _ ih => rw [List.length_cons, List.length_cons, ih]

theorem DiffSteps.lexems_length {lexems olds : List Lexem} {slots slots' : List Slot}
    (h : DiffSteps b render diff e c lexems olds slots σ slots' σ') : lexems.length = olds.length := by
  induction h with
  | nil => rfl
  | cons _ _ _ ih => rw [List.length_cons, List.length_cons, ih]

theorem DiffSteps.slots_length {lexems olds : List Lexem} {slots slots' : List Slot}
    (h : DiffSteps b render diff e c lexems olds slots σ slots' σ') : slots.length = olds.length := by
  induction h with
  | nil => rfl
  | cons _ _ _ ih => rw [List.length_cons, List.length_cons, ih]

section Single

variable {depth : Nat} {lexicon lexicon' : Lexicon} {level level' : Level} {slot slot' : Slot}

theorem renderWithin_single (hlexem : renderLexem b (renderWithin b depth e) e c lexem σ = .ok slot σ') :
    renderWithin b (depth + 1) e c (.new ⟨lexicon, level, [lexem]⟩) σ =
      .ok ⟨none, ⟨lexicon, level, [lexem]⟩, [slot]⟩ σ' :=
  Pass.bind_eq_ok.mpr ⟨[slot], σ', Pass.mapM_eq_ok.mpr (.cons hlexem .nil), rfl⟩

theorem diffWithin_single (hcongruent : lexem.isCongruent old = true)
    (hlexem : diffLexem b (renderWithin b depth e) (diffWithin b depth) e c 0 lexem old slot σ = .ok slot' σ') :
    diffWithin b (depth + 1) e c (.new ⟨lexicon', level', [lexem]⟩) ⟨none, ⟨lexicon, level, [old]⟩, [slot]⟩ σ =
      .ok ⟨none, ⟨lexicon', level', [lexem]⟩, [slot']⟩ σ' := by
  have hlexems : diffLexems b (renderWithin b depth e) (diffWithin b depth) e c 0 [lexem] [old] [slot] σ =
      .ok [slot'] σ' := by
    simp only [diffLexems, hcongruent, if_true]
    exact Pass.bind_eq_ok.mpr ⟨slot', σ', hlexem, rfl⟩
  have hreuse : e.reuses (.new ⟨lexicon', level', [lexem]⟩) ⟨none, ⟨lexicon, level, [old]⟩, [slot]⟩ = false := by
    simp [reuses, Phrase.new]
  rw [diffWithin, diffPhrase, hreuse]
  exact Pass.bind_eq_ok.mpr ⟨[slot'], σ', hlexems, rfl⟩

end Single

end Engine

end Parlance
