import Parlance.Engine.Remove
import Parlance.Engine.Render

/-! Diffing: bringing a host from the output of one sentence to that of the next. The two sentences are
compared lexem by lexem; they have to agree in length and in every word, and only arguments may differ. A
compound whose arguments are unchanged keeps its development, and everything else is compared further
down. What is inside a lexem is rendered and diffed by the passes that every function here is given. -/

namespace Parlance

/-- Finds no way from the old lexem to the new one. -/
def Lexem.incongruent {α : Type} (lexem old : Lexem) (index : Nat) : Except PassError α :=
  .error (.incongruent index old.qualified lexem.qualified)

/-- The changes of a host that take a node from one entry to another, given how entries are set and removed.
An entry with a new key replaces the old one, and an unchanged one is left alone. -/
def Lexem.diffEntry (lexem old : Lexem) (set : String → String → Host → Host)
    (remove : String → Host → Host) : Except PassError (Host → Host) := do
  let key ← lexem.stringArg 0
  let oldKey ← old.stringArg 0
  let value := (lexem.arg 1).toText
  if key ≠ oldKey then pure fun h => set key value (remove oldKey h)
  else if (lexem.arg 1).same (old.arg 1) then pure id
  else pure (set key value)

/-- As for other entries, but a property may be compared with what the host holds. -/
def Lexem.diffProperty (lexem old : Lexem) (live : Bool) (node : NodeId) :
    Except PassError (Host → Host) := do
  let name ← lexem.stringArg 0
  let oldName ← old.stringArg 0
  let value ← lexem.scalarArg 1
  let set := fun h : Host => h.setProperty node name value
  if name ≠ oldName then pure fun h => set (h.removeProperty node oldName)
  else if live then
    pure fun h => if (h.property? node name).any value.equals then h else set h
  else if (lexem.arg 1).same (old.arg 1) then pure id
  else pure set

/-- The changes from the class of one lexem to that of another. -/
def Lexem.diffClass (lexem old : Lexem) (node : NodeId) (h : Host) : Host :=
  match lexem.presentClass?, old.presentClass? with
  | some name, some oldName => if name = oldName then h else (h.removeClass node oldName).addClass node name
  | some name, none => h.addClass node name
  | none, some oldName => h.removeClass node oldName
  | none, none => h

/-- The changes from one list of classes to another: those that are missing go before those that are new. -/
def Lexem.diffClasses (lexem old : Lexem) (node : NodeId) (h : Host) : Host :=
  if (lexem.arg 0).same (old.arg 0) then h
  else
    let names := lexem.splitClasses
    let oldNames := old.splitClasses
    let h := (oldNames.filter (· ∉ names)).foldl (fun h name => h.removeClass node name) h
    (names.filter (· ∉ oldNames)).foldl (fun h name => h.addClass node name) h

variable {ω : Type} (b : Behaviour ω)

namespace Engine

variable (render : Cursor → Phrase → Pass ω Rendered)
variable (diff : Engine → Cursor → Phrase → Rendered → Pass ω Rendered)

/-- Diffs a list of outputs against phrases, place by place. Phrases without an output are rendered, and the
outputs that are left over are given back. -/
def diffItems (e : Engine) (c : Cursor) : List Phrase → List Rendered → Pass ω (List Rendered × List Rendered)
  | [], rest => pure ([], rest)
  | p :: ps, [] => do
      let r ← render c p
      let (rs, rest) ← diffItems e c ps []
      pure (r :: rs, rest)
  | p :: ps, old :: olds => do
      let r ← diff e c p old
      let (rs, rest) ← diffItems e c ps olds
      pure (r :: rs, rest)

/-- Diffs the children of a tag, given the new and the old ones. A child that is the same argument as before
is left alone. -/
def diffChildren (e : Engine) (c : Cursor) (tag : Lexem) :
    List Arg → List Arg → List Rendered → Pass ω (List Rendered × List Rendered)
  | [], _, rest => pure ([], rest)
  | child :: children, _, [] => do
      let r ← render c (← Pass.ofExcept (e.childPhrase tag child))
      let (rs, rest) ← diffChildren e c tag children [] []
      pure (r :: rs, rest)
  | child :: children, oldChildren, old :: olds => do
      let r ←
        if oldChildren.head?.any (·.same child) then pure old
        else diff e c (← Pass.ofExcept (e.childPhrase tag child)) old
      let (rs, rest) ← diffChildren e c tag children oldChildren.tail olds
      pure (r :: rs, rest)

/-- Diffs a tag. An element of another name is put in place of the old one before that is removed. -/
def diffTag (e : Engine) (c : Cursor) (lexem old : Lexem) (element : NodeId) (children : List Rendered) :
    Pass ω Slot := do
  let tag ← Pass.ofExcept (lexem.stringArg 0)
  let oldTag ← Pass.ofExcept (old.stringArg 0)
  if tag ≠ oldTag then
    let replacement ← renderTag render e (c.before element) lexem
    Pass.teardownSlot b c.parent old (.element element children)
    pure replacement
  else
    let (children, rest) ←
      diffChildren render diff e (c.inside element) lexem lexem.children old.children children
    rest.forM (Pass.teardown b element)
    pure (.element element children)

/-- Diffs what was chosen before a marker. If it is to be replaced, the old output is removed first. -/
def diffBranch (e : Engine) (c : Cursor) (witness : NodeId) (chosen : Option Phrase)
    (developed : Option Rendered) (replace : Bool) : Pass ω Slot := do
  let c := c.before witness
  let developed ← match chosen, developed, replace with
    | some phrase, some previous, false => do pure (some (← diff e c phrase previous))
    | chosen, previous, _ => do
        previous.forM (Pass.teardown b c.parent)
        match chosen with
        | some phrase => do pure (some (← render c phrase))
        | none => pure none
  pure (.branch witness developed)

/-- Renders a component again and diffs its output, by the engine that it was made with. While that goes on
the component counts as not mounted, and it stays so if the pass fails. -/
def update (id : InstanceId) : Pass ω Unit := do
  match (← Pass.instances)[id.index]? with
  | none => pure ()
  | some i =>
      match i.developed with
      | none => Pass.fail (.notMounted i.factory.typeName)
      | some previous =>
          Pass.editInstance id fun i => { i with developed := none }
          let s ← Pass.act (b.view id)
          let next ← diff i.engine ⟨i.parent, i.witness, some id⟩ (.new s) previous
          Pass.editInstance id fun i => { i with developed := some next }

/-- Diffs a component: it has to be of the same type, and it is told of new props. -/
def diffComponent (lexem old : Lexem) (id : InstanceId) : Pass ω Slot := do
  let factory ← Pass.ofExcept lexem.componentArg
  match (← Pass.instances)[id.index]? with
  | none => pure ()
  | some i =>
      if i.factory.typeName ≠ factory.typeName then
        Pass.fail (.componentTypeChanged i.factory.typeName factory.typeName)
  if (lexem.arg 1).same (old.arg 1) then pure (.component id)
  else
    Pass.act (b.lifecycle id (.setProps (lexem.arg 1)))
    update b diff id
    pure (.component id)

/-- Diffs what an event is bound to. A listener for the same event is kept and calls the new handler. -/
def diffListener (c : Cursor) (lexem old : Lexem) (id : ListenerId) : Pass ω Slot := do
  let event ← Pass.ofExcept (lexem.stringArg 0)
  let oldEvent ← Pass.ofExcept (old.stringArg 0)
  let listener ← Pass.ofExcept lexem.listener
  if event ≠ oldEvent then
    Pass.edit (·.removeListener c.parent oldEvent id)
    pure (.listener (← Pass.make (·.addListener c.parent event listener)))
  else
    Pass.edit (·.rebind id listener)
    pure (.listener id)

/-- Diffs a hook. Another hook takes over after the old one has been removed. -/
def diffHook (lexem old : Lexem) (node : NodeId) : Pass ω Slot := do
  let hook ← Pass.ofExcept lexem.hookArg
  let oldHook ← Pass.ofExcept old.hookArg
  if (lexem.arg 0).same (old.arg 0) then
    Pass.actOnHost (b.hookDiff hook node lexem.hookArgs old.hookArgs)
  else
    Pass.actOnHost (b.hookRemove oldHook node old.hookArgs)
    Pass.actOnHost (b.hookRender hook node lexem.hookArgs)
  pure (.hook node)

/-- Carries an instruction out again, with what was kept for its lexem. -/
def diffInstruction (e : Engine) (c : Cursor) (index : Nat) (lexem old : Lexem) :
    Instruction → Slot → Pass ω Slot
  | .tag, .element element children => diffTag b render diff e c lexem old element children
  | .text, .text node => do
      unless (lexem.arg 0).same (old.arg 0) do
        Pass.edit (·.setText node (lexem.arg 0).toText)
      pure (.text node)
  | .attr, slot => do
      Pass.edit (← Pass.ofExcept (lexem.diffEntry old (fun k v h => h.setAttribute c.parent k v)
        fun k h => h.removeAttribute c.parent k))
      pure slot
  | .prop, slot => do
      Pass.edit (← Pass.ofExcept (lexem.diffProperty old e.config.liveProperties c.parent))
      pure slot
  | .data, slot => do
      Pass.edit (← Pass.ofExcept (lexem.diffEntry old (fun k v h => h.setDataset c.parent k v)
        fun k h => h.removeDataset c.parent k))
      pure slot
  | .style, slot => do
      Pass.edit (← Pass.ofExcept (lexem.diffEntry old (fun k v h => h.setStyle c.parent k v)
        fun k h => h.removeStyle c.parent k))
      pure slot
  | .cssClass, slot => do
      Pass.edit (lexem.diffClass old c.parent)
      pure slot
  | .classes, slot => do
      Pass.edit (lexem.diffClasses old c.parent)
      pure slot
  | .id, slot => do
      unless (lexem.arg 0).same (old.arg 0) do
        Pass.edit (·.setId c.parent (lexem.arg 0).toText)
      pure slot
  | .on, .listener id => diffListener c lexem old id
  | .ifElse, .branch witness developed => do
      let chosen ← chosenPhrase b lexem
      let flipped := (lexem.arg 0).isTruthy != (old.arg 0).isTruthy
      diffBranch b render diff e c witness chosen developed flipped
  | .switchUse, .branch witness developed => do
      if lexem.packedChanged old then
        let chosen ← e.switchedPhrase b lexem
        diffBranch b render diff e c witness chosen developed (!(lexem.arg 0).same (old.arg 0))
      else pure (.branch witness developed)
  | .each, .each witness items => do
      let (items, rest) ← diffItems render diff e (c.before witness) (← eachPhrases b lexem) items
      rest.forM (Pass.teardown b c.parent)
      pure (.each witness items)
  | .html, .raw witness nodes => do
      if (lexem.arg 0).same (old.arg 0) then pure (.raw witness nodes)
      else
        Pass.edit fun h => nodes.foldl (fun h n => h.removeChild c.parent n) h
        pure (.raw witness (← Pass.make (·.insertRaw c.parent (lexem.arg 0).toText (some witness))))
  | .onDom, .hook node => diffHook b lexem old node
  | .execute, slot => do
      if lexem.packedChanged old then runCallback b lexem
      pure slot
  | .ref, slot => do
      nameNode c lexem
      pure slot
  | .component, .component id => diffComponent b diff lexem old id
  | _, _ => Pass.ofExcept (lexem.incongruent old index)

/-- Diffs one lexem. Words of namespaces that are not targets and words without arguments keep what they
have. -/
def diffLexem (e : Engine) (c : Cursor) (index : Nat) (lexem old : Lexem) (slot : Slot) : Pass ω Slot :=
  if !e.isTarget lexem.space || lexem.args.isEmpty then pure slot
  else
    match e.instruction? lexem with
    | some instruction => diffInstruction b render diff e c index lexem old instruction slot
    | none =>
        match slot with
        | .compound previous => do
            if lexem.argsChanged old then
              let developed ← e.develop b lexem
              pure (.compound (← diff e c (.new developed) previous))
            else pure (.compound previous)
        | _ => Pass.ofExcept (lexem.incongruent old index)

/-- Diffs lexems from an index on. -/
def diffLexems (e : Engine) (c : Cursor) (index : Nat) :
    List Lexem → List Lexem → List Slot → Pass ω (List Slot)
  | lexem :: lexems, old :: olds, slot :: slots => do
      unless lexem.isCongruent old do Pass.ofExcept (lexem.incongruent old index)
      let slot ← diffLexem b render diff e c index lexem old slot
      pure (slot :: (← diffLexems e c (index + 1) lexems olds slots))
  | _, _, _ => pure []

/-- Whether a phrase is the very sentence that was rendered, and nothing has to be done. -/
def reuses (e : Engine) (phrase : Phrase) (previous : Rendered) : Bool :=
  e.config.reuseIdentical && phrase.identity.isSome && phrase.identity = previous.identity

/-- Diffs a sentence, given the passes for what is inside its lexems. -/
def diffPhrase (e : Engine) (c : Cursor) (phrase : Phrase) (previous : Rendered) : Pass ω Rendered := do
  if e.reuses phrase previous then pure previous
  else
    let s := phrase.sentence
    let old := previous.sentence
    if s.length ≠ old.length then Pass.fail (.lengthMismatch old.length s.length)
    let slots ← diffLexems b render diff e c 0 s.lexems old.lexems previous.slots
    pure ⟨phrase.identity, s, slots⟩

/-- Diffs a sentence, going no deeper than so many levels. -/
def diffWithin : Nat → Engine → Cursor → Phrase → Rendered → Pass ω Rendered
  | 0, _, _, _, _ => throw (.trouble .exhausted)
  | depth + 1, e, c, phrase, previous =>
      diffPhrase b (renderWithin b depth e) (diffWithin depth) e c phrase previous

end Engine

end Parlance
