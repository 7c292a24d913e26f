import Mathlib.Data.List.Defs
import Parlance.Proofs.Engine.Success

/-! What a successful rendering of one lexem has done. There is one case for each kind of slot that it may
leave, and `renderLexem_step` says that these are all; whatever is proved about rendering is proved by
these cases. -/

namespace Parlance

open Pass

/-- One entry that a word puts on its node. -/
inductive Write where
  | attribute (name value : String)
  | property (name : String) (value : Scalar)
  | dataset (key value : String)
  | style (key value : String)
  | cssClass (name : String)
  | id (value : String)
deriving DecidableEq

namespace Host

def write (h : Host) (n : NodeId) : Write → Host
  | .attribute name value => h.setAttribute n name value
  | .property name value => h.setProperty n name value
  | .dataset key value => h.setDataset n key value
  | .style key value => h.setStyle n key value
  | .cssClass name => h.addClass n name
  | .id value => h.setId n value

def writeAll (h : Host) (n : NodeId) (ws : List Write) : Host := ws.foldl (fun h w => h.write n w) h

end Host

/-- The entries that a word puts on its node, if it is one of the words that do only that and its arguments
are in order. -/
def Lexem.writes (lexem : Lexem) : Instruction → Option (List Write)
  | .attr => (lexem.stringArg 0).toOption.map fun name => [.attribute name (lexem.arg 1).toText]
  | .prop =>
      match lexem.stringArg 0, lexem.scalarArg 1 with
      | .ok name, .ok value => some [.property name value]
      | _, _ => none
  | .data => (lexem.stringArg 0).toOption.map fun key => [.dataset key (lexem.arg 1).toText]
  | .style => (lexem.stringArg 0).toOption.map fun key => [.style key (lexem.arg 1).toText]
  | .cssClass => some (lexem.presentClass?.toList.map .cssClass)
  | .classes => some (lexem.splitClasses.map .cssClass)
  | .id => some [.id (lexem.arg 0).toText]
  | _ => none

theorem Lexem.entry_of_writes {lexem : Lexem} {put : String → Write} {ws : List Write}
    (h : (lexem.stringArg 0).toOption.map (fun k => [put k]) = some ws) :
    ∃ key, lexem.stringArg 0 = .ok key ∧ ws = [put key] := by
  obtain ⟨key, hkey, rfl⟩ := Option.map_eq_some_iff.mp h
  exact ⟨key, Except.ok_of_toOption hkey, rfl⟩

theorem Lexem.property_of_writes {lexem : Lexem} {ws : List Write} (h : lexem.writes .prop = some ws) :
    ∃ name value, lexem.stringArg 0 = .ok name ∧ lexem.scalarArg 1 = .ok value ∧ ws = [.property name value] := by
  unfold Lexem.writes at h
  cases hname : lexem.stringArg 0 with
  | error => rw [hname] at h; cases h
  | ok name =>
  cases hvalue : lexem.scalarArg 1 with
  | error => rw [hname, hvalue] at h; cases h
  | ok value =>
  rw [hname, hvalue] at h
  cases h
  exact ⟨name, value, rfl, rfl, rfl⟩

/-- Bodies are run and render functions are called, and nothing else happens in the world. -/
inductive Evaluation {ω : Type} (b : Behaviour ω) : ω → ω → Prop
  | refl {w : ω} : Evaluation b w w
  | run {body : Body} {init : Initializer} {s s' : Sentence} {args : List Arg} {w w' : ω}
      (hrun : b.run body init s args w = .ok s' w') : Evaluation b w w'
  | render {f : Identity} {item : Arg} {index : Nat} {s : Sentence} {w w₁ w' : ω}
      (hrender : b.render f item index w = .ok s w₁) (tail : Evaluation b w₁ w') : Evaluation b w w'

namespace Engine

variable {ω : Type} (b : Behaviour ω)

/-- The words that choose a sentence or none, with the label of their marker and the choice. -/
def choice (e : Engine) (lexem : Lexem) : Instruction → Option (String × Pass ω (Option Phrase))
  | .ifElse => some ("if", chosenPhrase b lexem)
  | .switchUse => some ("switchUse", e.switchedPhrase b lexem)
  | _ => none

/-- The phrases that the children of a tag stand for. -/
def ChildPhrases (e : Engine) (tag : Lexem) : List Arg → List Phrase → Prop :=
  List.Forall₂ fun child phrase => e.childPhrase tag child = .ok phrase

variable (inner : Cursor → Phrase → Pass ω Rendered)

/-- What rendering a lexem did to a stage, by the slot that it left. -/
inductive RenderStep (e : Engine) (c : Cursor) (lexem : Lexem) (σ : Stage ω) : Slot → Stage ω → Prop
  | skipped (hspace : e.isTarget lexem.space = false) : RenderStep e c lexem σ .skipped σ
  | compound {s : Sentence} {w : ω} {r : Rendered} {σ' : Stage ω}
      (hspace : e.isTarget lexem.space = true) (hword : e.instruction? lexem = none)
      (hdevelop : e.develop b lexem σ = .ok s (σ.inWorld w))
      (hinner : inner c (.new s) (σ.inWorld w) = .ok r σ') : RenderStep e c lexem σ (.compound r) σ'
  | attribute {i : Instruction} {ws : List Write}
      (hspace : e.isTarget lexem.space = true) (hword : e.instruction? lexem = some i)
      (hwrites : lexem.writes i = some ws) :
      RenderStep e c lexem σ .attribute (σ.onHost (·.writeAll c.parent ws))
  | text (hspace : e.isTarget lexem.space = true) (hword : e.instruction? lexem = some .text) :
      RenderStep e c lexem σ (.text σ.host.next) (σ.onHost (·.putText c (lexem.arg 0).toText))
  | element {tag : String} {phrases : List Phrase} {kids : List Rendered} {σ' : Stage ω}
      (hspace : e.isTarget lexem.space = true) (hword : e.instruction? lexem = some .tag)
      (htag : lexem.stringArg 0 = .ok tag) (hphrases : e.ChildPhrases lexem lexem.children phrases)
      (hinner : Chain (inner (c.inside σ.host.next)) phrases (σ.onHost (·.putElement c tag)) kids σ') :
      RenderStep e c lexem σ (.element σ.host.next kids) σ'
  | listener {event : String} {listener : Listener}
      (hspace : e.isTarget lexem.space = true) (hword : e.instruction? lexem = some .on)
      (hevent : lexem.stringArg 0 = .ok event) (hlistener : lexem.listener = .ok listener) :
      RenderStep e c lexem σ (.listener (σ.host.addListener c.parent event listener).1)
        (σ.onHost fun h => (h.addListener c.parent event listener).2)
  | branch {i : Instruction} {label : String} {m : Pass ω (Option Phrase)} {chosen : Option Phrase}
      {w : ω} {developed : Option Rendered} {σ' : Stage ω}
      (hspace : e.isTarget lexem.space = true) (hword : e.instruction? lexem = some i)
      (hchoice : e.choice b lexem i = some (label, m)) (hchosen : m σ = .ok chosen (σ.inWorld w))
      (hinner : Chain (inner c) chosen.toList (σ.inWorld w) developed.toList σ') :
      RenderStep e c lexem σ (.branch σ'.host.next developed)
        (σ'.onHost (·.putMarker c (e.markerText label)))
  | each {phrases : List Phrase} {w : ω} {items : List Rendered} {σ' : Stage ω}
      (hspace : e.isTarget lexem.space = true) (hword : e.instruction? lexem = some .each)
      (hphrases : eachPhrases b lexem σ = .ok phrases (σ.inWorld w))
      (hinner : Chain (inner c) phrases (σ.inWorld w) items σ') :
      RenderStep e c lexem σ (.each σ'.host.next items)
        (σ'.onHost (·.putMarker c (e.markerText "each")))
  | raw (hspace : e.isTarget lexem.space = true) (hword : e.instruction? lexem = some .html) :
      RenderStep e c lexem σ
        (.raw (σ.host.insertRaw c.parent (lexem.arg 0).toText c.anchor).2.next
          (σ.host.insertRaw c.parent (lexem.arg 0).toText c.anchor).1)
        (σ.onHost fun h => (h.insertRaw c.parent (lexem.arg 0).toText c.anchor).2.putMarker c
          (e.markerText "html"))
  | hook {hook : Identity} {h : Host} {w : ω}
      (hspace : e.isTarget lexem.space = true) (hword : e.instruction? lexem = some .onDom)
      (hhook : lexem.hookArg = .ok hook)
      (hcall : b.hookRender hook c.parent lexem.hookArgs σ.host σ.world = .ok h w) :
      RenderStep e c lexem σ (.hook c.parent) ((σ.onHost fun _ => h).inWorld w)
  | callback {callback : Identity} {w : ω}
      (hspace : e.isTarget lexem.space = true) (hword : e.instruction? lexem = some .execute)
      (hcallback : lexem.callbackArg = .ok callback)
      (hcall : b.callback callback (lexem.arg 1).items σ.world = .ok () w) :
      RenderStep e c lexem σ .effect (σ.inWorld w)
  | name {σ' : Stage ω}
      (hspace : e.isTarget lexem.space = true) (hword : e.instruction? lexem = some .ref)
      (hname : nameNode c lexem σ = .ok () σ') : RenderStep e c lexem σ .effect σ'
  | component {factory : Factory} {w₁ w₂ w₃ w₄ : ω} {s : Sentence} {r : Rendered} {σ' : Stage ω}
      (hspace : e.isTarget lexem.space = true) (hword : e.instruction? lexem = some .component)
      (hfactory : lexem.componentArg = .ok factory)
      (hcreate : b.create factory ⟨σ.instances.size⟩ (lexem.arg 1) σ.world = .ok () w₁)
      (hwill : b.lifecycle ⟨σ.instances.size⟩ .willMount w₁ = .ok () w₂)
      (hview : b.view ⟨σ.instances.size⟩ w₂ = .ok s w₃)
      (hinner : inner { c with component := some ⟨σ.instances.size⟩ } (.new s)
        ⟨σ.host, σ.instances.push ⟨factory, e, c.parent, none, none, []⟩, w₃⟩ = .ok r σ')
      (hdid : b.lifecycle ⟨σ.instances.size⟩ .didMount σ'.world = .ok () w₄) :
      RenderStep e c lexem σ (.component ⟨σ.instances.size⟩)
        (((σ'.onHost (·.putMarker c (e.markerText "component"))).onInstance ⟨σ.instances.size⟩
          fun i => { i with developed := some r, witness := some σ'.host.next }).inWorld w₄)

variable {b inner} {e : Engine} {c : Cursor} {lexem : Lexem} {σ σ' : Stage ω}

theorem Attempt.ofAct_eq_ok {ε α : Type} {action : Act ω α} {w w' : ω} {x : α} :
    (Attempt.ofAct action : Attempt ε ω α) w = .ok x w' ↔ action w = .ok x w' := by
  unfold Attempt.ofAct
  cases action w <;> simp

theorem apply_evaluation {word : Word} {owner : Lexicon} {s s' : Sentence} {name : String}
    {args : List Arg} {w w' : ω} (h : word.apply b.toInterpreter owner s name args w = .ok s' w') :
    Evaluation b w w' := by
  rcases word with _ | body | body
  · cases h
    exact .refl
  · unfold Word.apply at h
    cases hlevel : s.level <;> rw [hlevel] at h
    · exact .run h
    · cases h
      exact .refl
  · exact .run h

theorem develop_inWorld {s : Sentence} (h : e.develop b lexem σ = .ok s σ') :
    ∃ w, σ' = σ.inWorld w ∧ Evaluation b σ.world w := by
  unfold develop at h
  cases hget : e.targets.get lexem.space with
  | error err =>
      rw [hget] at h
      exact (fail_eq_ok.mp h).elim
  | ok lexicon =>
      rw [hget] at h
      obtain ⟨w, hexpand, rfl⟩ := attempt_eq_ok.mp h
      refine ⟨w, rfl, ?_⟩
      unfold Lexicon.develop Lexicon.expand at hexpand
      generalize lexicon.resolve lexem.name = found at hexpand
      rcases found with _ | ⟨owner, _ | body | body⟩
      · cases hexpand
      · cases hexpand
      · exact .run (Attempt.ofAct_eq_ok.mp hexpand)
      · cases hexpand

theorem chosenPhrase_inWorld {chosen : Option Phrase} (h : chosenPhrase b lexem σ = .ok chosen σ') :
    ∃ w, σ' = σ.inWorld w ∧ Evaluation b σ.world w := by
  unfold chosenPhrase at h
  generalize lexem.invalid _ _ = failure at h
  generalize lexem.arg (if (lexem.arg 0).isTruthy = true then 1 else 2) = branch at h
  cases branch with
  | render render =>
      simp only [bind_eq_ok, act_eq_ok, pure_eq_ok] at h
      obtain ⟨_, _, ⟨w, hrender, rfl⟩, -, rfl⟩ := h
      exact ⟨w, rfl, .render hrender .refl⟩
  | null | sentence _ _ =>
      obtain ⟨-, rfl⟩ := pure_eq_ok.mp h
      exact ⟨σ.world, rfl, .refl⟩
  | _ =>
      obtain ⟨-, rfl⟩ := ofExcept_eq_ok.mp h
      exact ⟨σ.world, rfl, .refl⟩

theorem useReference_evaluation {registry : Registry} {s s' : Sentence} {reference : String}
    {args : List Arg} {w w' : ω}
    (h : s.useReference b.toInterpreter registry reference args w = .ok s' w') : Evaluation b w w' := by
  unfold Sentence.useReference at h
  rcases hparts : Sentence.splitReference reference with _ | ⟨lexiconName, name⟩ <;> rw [hparts] at h
  · cases h
  rcases hlexicon : registry.get? lexiconName with _ | lexicon <;> simp only [hlexicon] at h
  · cases h
  rcases hword : lexicon.resolve name with _ | ⟨owner, word⟩ <;> rw [hword] at h
  · cases h
  exact apply_evaluation (Attempt.ofAct_eq_ok.mp h)

theorem switchedPhrase_inWorld {chosen : Option Phrase} (h : e.switchedPhrase b lexem σ = .ok chosen σ') :
    ∃ w, σ' = σ.inWorld w ∧ Evaluation b σ.world w := by
  unfold switchedPhrase at h
  generalize lexem.invalid _ _ = failure at h
  generalize lexem.arg 0 = choice at h
  cases choice with
  | str reference =>
      dsimp only at h
      cases hget : e.targets.get (String.ofList (reference.toList.takeWhile (· ≠ ':'))) with
      | error err =>
          rw [hget] at h
          exact (fail_eq_ok.mp h).elim
      | ok lexicon =>
          simp only [hget, bind_eq_ok, attempt_eq_ok, pure_eq_ok] at h
          obtain ⟨_, _, ⟨w, huse, rfl⟩, -, rfl⟩ := h
          exact ⟨w, rfl, useReference_evaluation huse⟩
  | null | sentence _ _ =>
      obtain ⟨-, rfl⟩ := pure_eq_ok.mp h
      exact ⟨σ.world, rfl, .refl⟩
  | _ =>
      obtain ⟨-, rfl⟩ := ofExcept_eq_ok.mp h
      exact ⟨σ.world, rfl, .refl⟩

theorem choice_inWorld {i : Instruction} {label : String} {m : Pass ω (Option Phrase)}
    {chosen : Option Phrase} (hchoice : e.choice b lexem i = some (label, m)) (h : m σ = .ok chosen σ') :
    ∃ w, σ' = σ.inWorld w ∧ Evaluation b σ.world w := by
  cases i <;> cases hchoice
  · exact chosenPhrase_inWorld h
  · exact switchedPhrase_inWorld h

theorem itemPhrases_evaluation {f : Identity} {index : Nat} {items : List Arg} {phrases : List Phrase}
    {w w' : ω} (h : itemPhrases b f index items w = .ok phrases w') : Evaluation b w w' := by
  induction items generalizing index phrases w with
  | nil =>
      cases h
      exact .refl
  | cons item items ih =>
      unfold itemPhrases at h
      change EStateM.bind _ _ w = _ at h
      unfold EStateM.bind at h
      cases hrender : b.render f item index w with
      | error t w₁ =>
          rw [hrender] at h
          cases h
      | ok s w₁ =>
          rw [hrender] at h
          change EStateM.bind _ _ w₁ = _ at h
          unfold EStateM.bind at h
          cases hrest : itemPhrases b f (index + 1) items w₁ with
          | error t w₂ =>
              rw [hrest] at h
              cases h
          | ok rest w₂ =>
              rw [hrest] at h
              cases h
              exact .render hrender (ih hrest)

theorem eachPhrases_inWorld {phrases : List Phrase} (h : eachPhrases b lexem σ = .ok phrases σ') :
    ∃ w, σ' = σ.inWorld w ∧ Evaluation b σ.world w := by
  unfold eachPhrases at h
  generalize lexem.invalid 1 _ = failure at h
  cases hfunction : lexem.arg 1 <;> simp only [hfunction] at h
  case render f =>
    cases hitems : lexem.arg 0 <;> simp only [hitems] at h <;> obtain ⟨_, _, hstep, h⟩ := bind_eq_ok.mp h
    case list | null =>
      obtain ⟨rfl, rfl⟩ := pure_eq_ok.mp hstep
      obtain ⟨w, hrender, rfl⟩ := act_eq_ok.mp h
      exact ⟨w, rfl, itemPhrases_evaluation hrender⟩
    all_goals cases (ofExcept_eq_ok.mp hstep).1
  all_goals
    cases hitems : lexem.arg 0 <;> simp only [hitems] at h <;> obtain ⟨_, _, hstep, h⟩ := bind_eq_ok.mp h
    case list | null =>
      obtain ⟨-, rfl⟩ := pure_eq_ok.mp hstep
      obtain ⟨-, rfl⟩ := ofExcept_eq_ok.mp h
      exact ⟨σ.world, rfl, .refl⟩
    all_goals cases (ofExcept_eq_ok.mp hstep).1

/-- The children of a tag are looked at one by one, which needs nothing but the tag. -/
theorem childPhrases_of_chain {c : Cursor} {tag : Lexem} {children : List Arg} {kids : List Rendered}
    (h : Chain (fun child => do inner c (← Pass.ofExcept (e.childPhrase tag child))) children σ kids σ') :
    ∃ phrases, e.ChildPhrases tag children phrases ∧ Chain (inner c) phrases σ kids σ' := by
  induction h with
  | nil => exact ⟨[], .nil, .nil⟩
  | cons head _ ih =>
      obtain ⟨phrases, hphrases, hchain⟩ := ih
      simp only [bind_eq_ok, ofExcept_eq_ok] at head
      obtain ⟨phrase, _, ⟨hphrase, rfl⟩, hinner⟩ := head
      exact ⟨phrase :: phrases, .cons hphrase hphrases, .cons hinner hchain⟩

theorem chain_of_childPhrases {c : Cursor} {tag : Lexem} {children : List Arg} {phrases : List Phrase}
    {kids : List Rendered} (hphrases : e.ChildPhrases tag children phrases)
    (h : Chain (inner c) phrases σ kids σ') :
    Chain (fun child => do inner c (← Pass.ofExcept (e.childPhrase tag child))) children σ kids σ' := by
  induction hphrases generalizing σ kids with
  | nil =>
      cases h
      exact .nil
  | cons hphrase _ ih =>
      cases h with
      | cons head tail => exact .cons (bind_eq_ok.mpr ⟨_, _, ofExcept_eq_ok.mpr ⟨hphrase, rfl⟩, head⟩) (ih tail)

theorem renderBranch_ok {label : String} {chosen : Option Phrase} {slot : Slot}
    (h : renderBranch inner e c label chosen σ = .ok slot σ') :
    ∃ developed σ₁, Chain (inner c) chosen.toList σ developed.toList σ₁ ∧
      slot = .branch σ₁.host.next developed ∧ σ' = σ₁.onHost (·.putMarker c (e.markerText label)) := by
  cases chosen with
  | none =>
      simp only [renderBranch, bind_eq_ok, witness_eq_ok, pure_eq_ok] at h
      obtain ⟨_, _, ⟨rfl, rfl⟩, _, _, ⟨rfl, rfl⟩, rfl, rfl⟩ := h
      exact ⟨none, σ, .nil, rfl, rfl⟩
  | some phrase =>
      simp only [renderBranch, bind_eq_ok, witness_eq_ok, pure_eq_ok] at h
      obtain ⟨r, σ₁, hr, _, _, ⟨rfl, rfl⟩, _, _, ⟨rfl, rfl⟩, rfl, rfl⟩ := h
      exact ⟨some r, σ₁, .cons hr .nil, rfl, rfl⟩

theorem mount_step {factory : Factory} {slot : Slot} (hspace : e.isTarget lexem.space = true)
    (hword : e.instruction? lexem = some .component) (hfactory : lexem.componentArg = .ok factory)
    (h : mount b inner e c factory (lexem.arg 1) σ = .ok slot σ') :
    RenderStep b inner e c lexem σ slot σ' := by
  simp only [mount, bind_eq_ok, pure_eq_ok, act_eq_ok, instances_eq_ok, modify_eq_ok, witness_eq_ok,
    editInstance_eq_ok] at h
  obtain ⟨_, _, ⟨rfl, rfl⟩, _, _, ⟨w₁, hcreate, rfl⟩, _, _, rfl, _, _, ⟨w₂, hwill, rfl⟩, s, _,
    ⟨w₃, hview, rfl⟩, r, σ₁, hinner, _, _, ⟨rfl, rfl⟩, _, _, rfl, _, _, ⟨w₄, hdid, rfl⟩, rfl, rfl⟩ := h
  exact .component hspace hword hfactory hcreate hwill hview hinner hdid

/-- An instruction that only writes on its node does so in the order of its entries. -/
theorem renderInstruction_writes {i : Instruction} {slot : Slot}
    (hi : i ∈ [Instruction.attr, .prop, .data, .style, .cssClass, .classes, .id])
    (h : renderInstruction b inner e c lexem i σ = .ok slot σ') :
    ∃ ws, lexem.writes i = some ws ∧ slot = .attribute ∧ σ' = σ.onHost (·.writeAll c.parent ws) := by
  simp only [List.mem_cons, List.not_mem_nil, or_false] at hi
  rcases hi with rfl | rfl | rfl | rfl | rfl | rfl | rfl
  · simp only [renderInstruction, bind_eq_ok, ofExcept_eq_ok, edit_eq_ok, pure_eq_ok] at h
    obtain ⟨name, _, ⟨hname, rfl⟩, _, _, rfl, rfl, rfl⟩ := h
    exact ⟨[.attribute name (lexem.arg 1).toText], by simp [Lexem.writes, hname, Except.toOption], rfl, rfl⟩
  · simp only [renderInstruction, bind_eq_ok, ofExcept_eq_ok, edit_eq_ok, pure_eq_ok] at h
    obtain ⟨name, _, ⟨hname, rfl⟩, value, _, ⟨hvalue, rfl⟩, _, _, rfl, rfl, rfl⟩ := h
    exact ⟨[.property name value], by simp [Lexem.writes, hname, hvalue], rfl, rfl⟩
  · simp only [renderInstruction, bind_eq_ok, ofExcept_eq_ok, edit_eq_ok, pure_eq_ok] at h
    obtain ⟨key, _, ⟨hkey, rfl⟩, _, _, rfl, rfl, rfl⟩ := h
    exact ⟨[.dataset key (lexem.arg 1).toText], by simp [Lexem.writes, hkey, Except.toOption], rfl, rfl⟩
  · simp only [renderInstruction, bind_eq_ok, ofExcept_eq_ok, edit_eq_ok, pure_eq_ok] at h
    obtain ⟨key, _, ⟨hkey, rfl⟩, _, _, rfl, rfl, rfl⟩ := h
    exact ⟨[.style key (lexem.arg 1).toText], by simp [Lexem.writes, hkey, Except.toOption], rfl, rfl⟩
  · cases hclass : lexem.presentClass? with
    | none =>
        simp only [renderInstruction, hclass, pure_eq_ok] at h
        obtain ⟨rfl, rfl⟩ := h
        exact ⟨[], by simp [Lexem.writes, hclass], rfl, rfl⟩
    | some name =>
        simp only [renderInstruction, hclass, bind_eq_ok, edit_eq_ok, pure_eq_ok] at h
        obtain ⟨_, _, rfl, rfl, rfl⟩ := h
        exact ⟨[.cssClass name], by simp [Lexem.writes, hclass], rfl, rfl⟩
  · simp only [renderInstruction, bind_eq_ok, edit_eq_ok, pure_eq_ok] at h
    obtain ⟨_, _, rfl, rfl, rfl⟩ := h
    refine ⟨_, rfl, rfl, ?_⟩
    simp only [Host.writeAll, List.foldl_map]
    rfl
  · simp only [renderInstruction, bind_eq_ok, edit_eq_ok, pure_eq_ok] at h
    obtain ⟨_, _, rfl, rfl, rfl⟩ := h
    exact ⟨_, rfl, rfl, rfl⟩

theorem renderInstruction_step {i : Instruction} {slot : Slot} (hspace : e.isTarget lexem.space = true)
    (hword : e.instruction? lexem = some i) (h : renderInstruction b inner e c lexem i σ = .ok slot σ') :
    RenderStep b inner e c lexem σ slot σ' := by
  by_cases hi : i ∈ [Instruction.attr, .prop, .data, .style, .cssClass, .classes, .id]
  · obtain ⟨ws, hwrites, rfl, rfl⟩ := renderInstruction_writes hi h
    exact .attribute hspace hword hwrites
  cases i with
  | attr | prop | data | style | cssClass | classes | id => simp at hi
  | tag =>
      simp only [renderInstruction, renderTag, bind_eq_ok, ofExcept_eq_ok, make_eq_ok, mapM_eq_ok,
        pure_eq_ok] at h
      obtain ⟨tag, _, ⟨htag, rfl⟩, _, _, ⟨rfl, rfl⟩, kids, _, hchain, rfl, rfl⟩ := h
      obtain ⟨phrases, hphrases, hchain⟩ := childPhrases_of_chain hchain
      exact .element hspace hword htag hphrases hchain
  | text =>
      simp only [renderInstruction, make_eq_ok] at h
      obtain ⟨rfl, rfl⟩ := h
      exact .text hspace hword
  | on =>
      simp only [renderInstruction, bind_eq_ok, ofExcept_eq_ok, make_eq_ok, pure_eq_ok] at h
      obtain ⟨event, _, ⟨hevent, rfl⟩, listener, _, ⟨hlistener, rfl⟩, _, _, ⟨rfl, rfl⟩, rfl, rfl⟩ := h
      exact .listener hspace hword hevent hlistener
  | ifElse =>
      simp only [renderInstruction, bind_eq_ok] at h
      obtain ⟨chosen, _, hchosen, h⟩ := h
      obtain ⟨w, rfl, -⟩ := chosenPhrase_inWorld hchosen
      obtain ⟨developed, σ₁, hchain, rfl, rfl⟩ := renderBranch_ok h
      exact .branch hspace hword rfl hchosen hchain
  | switchUse =>
      simp only [renderInstruction, bind_eq_ok] at h
      obtain ⟨chosen, _, hchosen, h⟩ := h
      obtain ⟨w, rfl, -⟩ := switchedPhrase_inWorld hchosen
      obtain ⟨developed, σ₁, hchain, rfl, rfl⟩ := renderBranch_ok h
      exact .branch hspace hword rfl hchosen hchain
  | each =>
      simp only [renderInstruction, bind_eq_ok, mapM_eq_ok, witness_eq_ok, pure_eq_ok] at h
      obtain ⟨phrases, _, hphrases, items, σ₁, hchain, _, _, ⟨rfl, rfl⟩, rfl, rfl⟩ := h
      obtain ⟨w, rfl, -⟩ := eachPhrases_inWorld hphrases
      exact .each hspace hword hphrases hchain
  | html =>
      simp only [renderInstruction, bind_eq_ok, make_eq_ok, witness_eq_ok, pure_eq_ok] at h
      obtain ⟨_, _, ⟨rfl, rfl⟩, _, _, ⟨rfl, rfl⟩, rfl, rfl⟩ := h
      exact .raw hspace hword
  | onDom =>
      simp only [renderInstruction, bind_eq_ok, ofExcept_eq_ok, actOnHost_eq_ok, pure_eq_ok] at h
      obtain ⟨hook, _, ⟨hhook, rfl⟩, _, _, ⟨h', w, hcall, rfl⟩, rfl, rfl⟩ := h
      exact .hook hspace hword hhook hcall
  | execute =>
      simp only [renderInstruction, runCallback, bind_eq_ok, ofExcept_eq_ok, act_eq_ok, pure_eq_ok] at h
      obtain ⟨_, _, ⟨callback, _, ⟨hcallback, rfl⟩, w, hcall, rfl⟩, rfl, rfl⟩ := h
      exact .callback hspace hword hcallback hcall
  | ref =>
      simp only [renderInstruction, bind_eq_ok, pure_eq_ok] at h
      obtain ⟨_, _, hname, rfl, rfl⟩ := h
      exact .name hspace hword hname
  | component =>
      simp only [renderInstruction, bind_eq_ok, ofExcept_eq_ok] at h
      obtain ⟨factory, _, ⟨hfactory, rfl⟩, h⟩ := h
      exact mount_step hspace hword hfactory h

/-- Rendering a lexem that succeeds is one of the steps. -/
theorem renderLexem_step {slot : Slot} (h : renderLexem b inner e c lexem σ = .ok slot σ') :
    RenderStep b inner e c lexem σ slot σ' := by
  unfold renderLexem at h
  cases hspace : e.isTarget lexem.space with
  | false =>
      rw [hspace, if_neg Bool.false_ne_true] at h
      obtain ⟨rfl, rfl⟩ := pure_eq_ok.mp h
      exact .skipped hspace
  | true =>
      rw [hspace, if_pos rfl] at h
      cases hword : e.instruction? lexem with
      | some i =>
          rw [hword] at h
          exact renderInstruction_step hspace hword h
      | none =>
          simp only [hword, bind_eq_ok, pure_eq_ok] at h
          obtain ⟨s, _, hdevelop, r, _, hinner, rfl, rfl⟩ := h
          obtain ⟨w, rfl, -⟩ := develop_inWorld hdevelop
          exact .compound hspace hword hdevelop hinner

theorem renderInstruction_eq {i : Instruction} {slot : Slot} (hspace : e.isTarget lexem.space = true)
    (hword : e.instruction? lexem = some i) (h : renderInstruction b inner e c lexem i σ = .ok slot σ') :
    renderLexem b inner e c lexem σ = .ok slot σ' := by
  rw [renderLexem, if_pos hspace, hword]
  exact h

/-- An instruction with entries to write succeeds. -/
theorem renderInstruction_of_writes {i : Instruction} {ws : List Write} (hwrites : lexem.writes i = some ws) :
    renderInstruction b inner e c lexem i σ = .ok .attribute (σ.onHost (·.writeAll c.parent ws)) := by
  cases i with
  | attr | data | style =>
      obtain ⟨key, hkey, rfl⟩ := Lexem.entry_of_writes hwrites
      simp only [renderInstruction, bind_eq_ok, ofExcept_eq_ok, edit_eq_ok, pure_eq_ok]
      exact ⟨key, σ, ⟨hkey, rfl⟩, (), _, rfl, trivial, rfl⟩
  | prop =>
      obtain ⟨name, value, hname, hvalue, rfl⟩ := Lexem.property_of_writes hwrites
      simp only [renderInstruction, bind_eq_ok, ofExcept_eq_ok, edit_eq_ok, pure_eq_ok]
      exact ⟨name, σ, ⟨hname, rfl⟩, value, σ, ⟨hvalue, rfl⟩, (), _, rfl, trivial, rfl⟩
  | cssClass =>
      cases hwrites
      cases hclass : lexem.presentClass? <;> simp only [renderInstruction, hclass] <;> rfl
  | classes =>
      cases hwrites
      simp only [renderInstruction, bind_eq_ok, edit_eq_ok, pure_eq_ok]
      refine ⟨(), _, rfl, trivial, ?_⟩
      simp only [Host.writeAll, List.foldl_map]
      rfl
  | id =>
      cases hwrites
      rfl
  | _ => cases hwrites

theorem renderBranch_of_chain {label : String} {chosen : Option Phrase} {developed : Option Rendered}
    (h : Chain (inner c) chosen.toList σ developed.toList σ') :
    renderBranch inner e c label chosen σ = .ok (.branch σ'.host.next developed)
      (σ'.onHost (·.putMarker c (e.markerText label))) := by
  cases chosen with
  | none =>
      cases developed with
      | none =>
          cases h
          rfl
      | some => cases h
  | some phrase =>
      cases developed with
      | none => cases h
      | some r =>
          cases h with
          | cons head tail =>
              cases tail
              simp only [renderBranch, bind_eq_ok, witness_eq_ok, pure_eq_ok]
              exact ⟨r, _, head, some r, _, ⟨rfl, rfl⟩, _, _, ⟨rfl, rfl⟩, rfl, rfl⟩

/-- Every step can be taken. -/
theorem RenderStep.ok {slot : Slot} (h : RenderStep b inner e c lexem σ slot σ') :
    renderLexem b inner e c lexem σ = .ok slot σ' := by
  cases h with
  | skipped hspace =>
      rw [renderLexem, hspace, if_neg Bool.false_ne_true]
      rfl
  | compound hspace hword hdevelop hinner =>
      rw [renderLexem, if_pos hspace, hword]
      simp only [bind_eq_ok, pure_eq_ok]
      exact ⟨_, _, hdevelop, _, _, hinner, rfl, rfl⟩
  | «attribute» hspace hword hwrites =>
      exact renderInstruction_eq hspace hword (renderInstruction_of_writes hwrites)
  | text hspace hword => exact renderInstruction_eq hspace hword rfl
  | element hspace hword htag hphrases hinner =>
      refine renderInstruction_eq hspace hword ?_
      simp only [renderInstruction, renderTag, bind_eq_ok, ofExcept_eq_ok, make_eq_ok, mapM_eq_ok, pure_eq_ok]
      exact ⟨_, _, ⟨htag, rfl⟩, _, _, ⟨rfl, rfl⟩, _, _, chain_of_childPhrases hphrases hinner, rfl, rfl⟩
  | listener hspace hword hevent hlistener =>
      refine renderInstruction_eq hspace hword ?_
      simp only [renderInstruction, bind_eq_ok, ofExcept_eq_ok, make_eq_ok, pure_eq_ok]
      exact ⟨_, _, ⟨hevent, rfl⟩, _, _, ⟨hlistener, rfl⟩, _, _, ⟨rfl, rfl⟩, rfl, rfl⟩
  | @branch i label m chosen w developed σ₁ hspace hword hchoice hchosen hinner =>
      refine renderInstruction_eq hspace hword ?_
      cases i <;> cases hchoice <;> simp only [renderInstruction, bind_eq_ok] <;>
        exact ⟨_, _, hchosen, renderBranch_of_chain hinner⟩
  | each hspace hword hphrases hinner =>
      refine renderInstruction_eq hspace hword ?_
      simp only [renderInstruction, bind_eq_ok, mapM_eq_ok, witness_eq_ok, pure_eq_ok]
      exact ⟨_, _, hphrases, _, _, hinner, _, _, ⟨rfl, rfl⟩, rfl, rfl⟩
  | raw hspace hword => exact renderInstruction_eq hspace hword rfl
  | hook hspace hword hhook hcall =>
      refine renderInstruction_eq hspace hword ?_
      simp only [renderInstruction, bind_eq_ok, ofExcept_eq_ok, actOnHost_eq_ok, pure_eq_ok]
      exact ⟨_, _, ⟨hhook, rfl⟩, (), _, ⟨_, _, hcall, rfl⟩, trivial, rfl⟩
  | callback hspace hword hcallback hcall =>
      refine renderInstruction_eq hspace hword ?_
      simp only [renderInstruction, runCallback, bind_eq_ok, ofExcept_eq_ok, act_eq_ok, pure_eq_ok]
      exact ⟨(), _, ⟨_, _, ⟨hcallback, rfl⟩, _, hcall, rfl⟩, trivial, rfl⟩
  | name hspace hword hname =>
      refine renderInstruction_eq hspace hword ?_
      simp only [renderInstruction, bind_eq_ok, pure_eq_ok]
      exact ⟨(), _, hname, trivial, rfl⟩
  | @component factory w₁ w₂ w₃ w₄ s r σ₁ hspace hword hfactory hcreate hwill hview hinner hdid =>
      refine renderInstruction_eq hspace hword ?_
      simp only [renderInstruction, mount, bind_eq_ok, ofExcept_eq_ok, pure_eq_ok, act_eq_ok, instances_eq_ok,
        modify_eq_ok, witness_eq_ok, editInstance_eq_ok]
      exact ⟨factory, σ, ⟨hfactory, rfl⟩, _, σ, ⟨rfl, rfl⟩, (), _, ⟨w₁, hcreate, rfl⟩, ⟨⟩, _, rfl, (), _,
        ⟨w₂, hwill, rfl⟩, s, _, ⟨w₃, hview, rfl⟩, r, σ₁, hinner, _, _, ⟨rfl, rfl⟩, (), _, rfl, (), _,
        ⟨w₄, hdid, rfl⟩, rfl, rfl⟩

/-- The steps of rendering a sentence, lexem by lexem. -/
theorem renderPhrase_ok {phrase : Phrase} {r : Rendered} (h : renderPhrase b inner e c phrase σ = .ok r σ') :
    ∃ slots, r = ⟨phrase.identity, phrase.sentence, slots⟩ ∧
      Chain (renderLexem b inner e c) phrase.sentence.lexems σ slots σ' := by
  simp only [renderPhrase, bind_eq_ok, mapM_eq_ok, pure_eq_ok] at h
  obtain ⟨slots, _, hchain, rfl, rfl⟩ := h
  exact ⟨slots, rfl, hchain⟩

end Engine

end Parlance
