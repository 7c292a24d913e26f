import Parlance.Engine.Pass

/-! Rendering: putting a sentence on a host for the first time. Lexems are carried out in order; a compound
is developed by one step and its development is rendered in its place. Whatever a lexem contains is
rendered by the same pass one level deeper, so every function here is given that pass. -/

namespace Parlance

variable {ω : Type} (b : Behaviour ω)

namespace Engine

/-- One step of development, by the lexicon of the lexem's own namespace. -/
def develop (e : Engine) (lexem : Lexem) : Pass ω Sentence :=
  match e.targets.get lexem.space with
  | .error error => Pass.fail (.vocabulary error)
  | .ok lexicon => Pass.attempt .vocabulary (lexicon.develop b.toInterpreter lexem)

/-- A child of a tag as a sentence. A child that is not a sentence, null included, becomes a text. -/
def childPhrase (e : Engine) (tag : Lexem) (child : Arg) : Except PassError Phrase :=
  match child with
  | .sentence identity s => .ok ⟨some identity, s⟩
  | other =>
      match e.targets.get tag.space with
      | .error error => .error (.vocabulary error)
      | .ok lexicon => .ok (.new ((Sentence.empty lexicon .firstLevel).append tag.space "text" [other]))

/-- The branch that an `if` chooses. A render function is called with the condition. -/
def chosenPhrase (lexem : Lexem) : Pass ω (Option Phrase) := do
  let condition := lexem.arg 0
  let index := if condition.isTruthy then 1 else 2
  match lexem.arg index with
  | .null => pure none
  | .sentence identity s => pure (some ⟨some identity, s⟩)
  | .render render => do pure (some (.new (← Pass.act (b.render render condition 0))))
  | _ => Pass.ofExcept (lexem.invalid index "a sentence or a render function")

/-- The sentence that a `switchUse` names or holds. -/
def switchedPhrase (e : Engine) (lexem : Lexem) : Pass ω (Option Phrase) :=
  match lexem.arg 0 with
  | .null => pure none
  | .sentence identity s => pure (some ⟨some identity, s⟩)
  | .str reference =>
      match e.targets.get (String.ofList (reference.toList.takeWhile (· ≠ ':'))) with
      | .error error => Pass.fail (.vocabulary error)
      | .ok lexicon => do
          let s := Sentence.empty lexicon .firstLevel
          let s ← Pass.attempt .vocabulary
            (s.useReference b.toInterpreter e.targets reference (lexem.arg 1).items)
          pure (some (.new s))
  | _ => Pass.ofExcept (lexem.invalid 0 "a reference or a sentence")

/-- Calls a render function with every item of a list, counting from an index. -/
def itemPhrases (render : Identity) (index : Nat) : List Arg → Act ω (List Phrase)
  | [] => pure []
  | item :: items => do
      let s ← b.render render item index
      pure (.new s :: (← itemPhrases render (index + 1) items))

/-- The sentences of an `each`, all of them made before the first is put on the host. -/
def eachPhrases (lexem : Lexem) : Pass ω (List Phrase) := do
  let items ← match lexem.arg 0 with
    | .list _ items => pure items
    | .null => pure []
    | _ => Pass.ofExcept (lexem.invalid 0 "a list")
  match lexem.arg 1 with
  | .render render => Pass.act (itemPhrases b render 0 items)
  | _ => Pass.ofExcept (lexem.invalid 1 "a render function")

/-- Calls the callback of an `execute`. -/
def runCallback (lexem : Lexem) : Pass ω Unit := do
  let callback ← Pass.ofExcept lexem.callbackArg
  Pass.act (b.callback callback (lexem.arg 1).items)

/-- Gives a node a name in the component whose output it belongs to. -/
def nameNode (c : Cursor) (lexem : Lexem) : Pass ω Unit :=
  match c.component with
  | none => pure ()
  | some id => do
      let name ← Pass.ofExcept (lexem.stringArg 0)
      Pass.editInstance id fun i => { i with refs := i.refs.put name c.parent }

variable (inner : Cursor → Phrase → Pass ω Rendered)

def renderTag (e : Engine) (c : Cursor) (lexem : Lexem) : Pass ω Slot := do
  let tag ← Pass.ofExcept (lexem.stringArg 0)
  let node ← Pass.make fun host =>
    let (node, host) := host.createElement tag
    (node, host.place c.parent node c.anchor)
  let children ← lexem.children.mapM fun child => do
    inner (c.inside node) (← Pass.ofExcept (e.childPhrase lexem child))
  pure (.element node children)

def renderBranch (e : Engine) (c : Cursor) (label : String) (chosen : Option Phrase) : Pass ω Slot := do
  let developed ← match chosen with
    | some phrase => do pure (some (← inner c phrase))
    | none => pure none
  pure (.branch (← Pass.witness e c label) developed)

/-- Makes a component and renders its output, with a marker after it. -/
def mount (e : Engine) (c : Cursor) (factory : Factory) (props : Arg) : Pass ω Slot := do
  let id : InstanceId := ⟨(← Pass.instances).size⟩
  Pass.act (b.create factory id props)
  modify fun stage => { stage with
    instances := stage.instances.push ⟨factory, e, c.parent, none, none, []⟩ }
  Pass.act (b.lifecycle id .willMount)
  let s ← Pass.act (b.view id)
  let developed ← inner { c with component := some id } (.new s)
  let witness ← Pass.witness e c "component"
  Pass.editInstance id fun i => { i with developed := some developed, witness := some witness }
  Pass.act (b.lifecycle id .didMount)
  pure (.component id)

/-- Carries an instruction out for the first time. -/
def renderInstruction (e : Engine) (c : Cursor) (lexem : Lexem) : Instruction → Pass ω Slot
  | .tag => renderTag inner e c lexem
  | .text => Pass.make fun host =>
      let (node, host) := host.createText (lexem.arg 0).toText
      (.text node, host.place c.parent node c.anchor)
  | .attr => do
      let name ← Pass.ofExcept (lexem.stringArg 0)
      Pass.edit (·.setAttribute c.parent name (lexem.arg 1).toText)
      pure .attribute
  | .prop => do
      let name ← Pass.ofExcept (lexem.stringArg 0)
      let value ← Pass.ofExcept (lexem.scalarArg 1)
      Pass.edit (·.setProperty c.parent name value)
      pure .attribute
  | .data => do
      let key ← Pass.ofExcept (lexem.stringArg 0)
      Pass.edit (·.setDataset c.parent key (lexem.arg 1).toText)
      pure .attribute
  | .style => do
      let key ← Pass.ofExcept (lexem.stringArg 0)
      Pass.edit (·.setStyle c.parent key (lexem.arg 1).toText)
      pure .attribute
  | .cssClass => do
      match lexem.presentClass? with
      | some name => Pass.edit (·.addClass c.parent name)
      | none => pure ()
      pure .attribute
  | .classes => do
      Pass.edit fun host => lexem.splitClasses.foldl (fun h name => h.addClass c.parent name) host
      pure .attribute
  | .id => do
      Pass.edit (·.setId c.parent (lexem.arg 0).toText)
      pure .attribute
  | .on => do
      let event ← Pass.ofExcept (lexem.stringArg 0)
      let listener ← Pass.ofExcept lexem.listener
      pure (.listener (← Pass.make (·.addListener c.parent event listener)))
  | .ifElse => do renderBranch inner e c "if" (← chosenPhrase b lexem)
  | .switchUse => do renderBranch inner e c "switchUse" (← e.switchedPhrase b lexem)
  | .each => do
      let items ← (← eachPhrases b lexem).mapM (inner c)
      pure (.each (← Pass.witness e c "each") items)
  | .html => do
      let nodes ← Pass.make (·.insertRaw c.parent (lexem.arg 0).toText c.anchor)
      pure (.raw (← Pass.witness e c "html") nodes)
  | .onDom => do
      let hook ← Pass.ofExcept lexem.hookArg
      Pass.actOnHost (b.hookRender hook c.parent lexem.hookArgs)
      pure (.hook c.parent)
  | .execute => do
      runCallback b lexem
      pure .effect
  | .ref => do
      nameNode c lexem
      pure .effect
  | .component => do
      let factory ← Pass.ofExcept lexem.componentArg
      mount b inner e c factory (lexem.arg 1)

/-- Renders one lexem. Words of namespaces that are not targets are passed over. -/
def renderLexem (e : Engine) (c : Cursor) (lexem : Lexem) : Pass ω Slot :=
  if e.isTarget lexem.space then
    match e.instruction? lexem with
    | some instruction => renderInstruction b inner e c lexem instruction
    | none => do pure (.compound (← inner c (.new (← e.develop b lexem))))
  else pure .skipped

/-- Renders a sentence, given the pass for what is inside its lexems. -/
def renderPhrase (e : Engine) (c : Cursor) (phrase : Phrase) : Pass ω Rendered := do
  let slots ← phrase.sentence.lexems.mapM (renderLexem b inner e c)
  pure ⟨phrase.identity, phrase.sentence, slots⟩

/-- Renders a sentence, going no deeper than so many levels. -/
def renderWithin : Nat → Engine → Cursor → Phrase → Pass ω Rendered
  | 0, _, _, _ => throw (.trouble .exhausted)
  | depth + 1, e, c, phrase => renderPhrase b (renderWithin depth e) e c phrase

end Engine

end Parlance
