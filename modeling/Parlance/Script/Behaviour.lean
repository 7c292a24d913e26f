import Parlance.Engine.Pass
import Parlance.Script.Eval

/-! How scripts behave: running the bodies of words, and calling the functions, hooks and components that a
script has made. Each of them leaves a line in the journal. A mistake in a script that is run in this way
breaks the action off, because a function has nobody to hand an error to. -/

namespace Parlance

namespace Script

/-- Runs a body on a sentence. A body with a label is announced with the lexicon and the level that it
builds with, and the lexicon of the sentence. -/
def runBody (ctx : Context) (i : Interpreter World) (body : Body) (h : Initializer) (s : Sentence)
    (args : List Arg) : Act World Sentence := do
  match body.label with
  | some label => World.write s!"run {label} {h.lexicon.name} {h.level.name} {s.lexicon.name}"
  | none => pure ()
  closed (build ctx i ⟨h, [], args⟩ s body.calls)

/-- Runs bodies that call each other no deeper than so many levels. -/
def interpreterWithin (ctx : Context) : Nat → Interpreter World
  | 0 => ⟨World.fresh, fun _ _ _ _ => throw .exhausted⟩
  | depth + 1 => ⟨World.fresh, fun body h s args => runBody ctx (interpreterWithin ctx depth) body h s args⟩

/-- How deep bodies may call each other. -/
def depthLimit : Nat := 10000

def interpreter (ctx : Context) : Interpreter World := interpreterWithin ctx depthLimit

variable (ctx : Context)

/-- Builds the calls of a function in its environment. -/
def buildIn (env : Env) (calls : List Call) : Act World Sentence :=
  closed (build ctx (interpreter ctx) env env.initializer.empty calls)

/-- Calls a render function. -/
def callRender (render : Identity) (item : Arg) (index : Nat) : Act World Sentence := do
  match (← get).cell render with
  | .render env calls label =>
      match label with
      | some label => World.write s!"render {label} {index} {item.toText}"
      | none => pure ()
      buildIn ctx (withItem env item index) calls
  | _ => throw (.brokenOff "not a render function")

/-- Texts in brackets, divided by bars. -/
def barred (args : List Arg) : String := "[" ++ "|".intercalate (args.map Arg.toText) ++ "]"

/-- An optional value as a line in the journal shows it. -/
def optional : Option String → String
  | none => "None"
  | some shown => s!"Some({shown})"

/-- Calls a handler with an event and further arguments. Afterwards the store is updated, if the handler says
how. -/
def callHandler (handler : Identity) (event : Event) (extra : List Arg) : Act World Unit := do
  match (← get).cell handler with
  | .handler env label update =>
      let key := optional (event.keyCode.map Number.digitsText)
      let value := optional (event.value.map Text.quoted)
      let checked := optional (event.checked.map fun b => if b then "true" else "false")
      let text := optional (event.text.map Text.quoted)
      World.write s!"{label} {event.name} {key} {value} {checked} {text} {barred extra}"
      match update with
      | none => pure ()
      | some e => World.update fun snapshot => do
          let list ← closed (newList extra)
          let env := (env.bind "snapshot" snapshot).bind "extra" list
          let env := env.bind "value" (match event.value with
            | some value => .str value
            | none => .null)
          closed (eval ctx (interpreter ctx) env e)
  | .listener label => World.write s!"{label} {event.name}"
  | _ => pure ()

def callCallback (callback : Identity) (args : List Arg) : Act World Unit := do
  match (← get).cell callback with
  | .callback label => World.write s!"{label} {barred args}"
  | _ => pure ()

/-- Calls a hook on a node for the first time. It shows its first argument as an attribute of its own name,
or, if it is bare, turns a class of its name over. -/
def hookRender (hook : Identity) (node : NodeId) (args : List Arg) (host : Host) : Act World Host := do
  match (← get).cell hook with
  | .hook label bare =>
      let shown := (argAt args 0).toText
      World.write s!"{label} render {node.mark} {shown}"
      pure (if bare then host.toggleClass node label else host.setAttribute node label shown)
  | _ => pure host

/-- Calls a hook again, with its arguments and the previous ones. -/
def hookDiff (hook : Identity) (node : NodeId) (args previous : List Arg) (host : Host) : Act World Host := do
  match (← get).cell hook with
  | .hook label false =>
      let next := argAt args 0
      let old := argAt previous 0
      World.write s!"{label} diff {node.mark} {old.toText} {next.toText}"
      pure (if next.same old then host else host.setAttribute node label next.toText)
  | _ => pure host

def hookRemove (hook : Identity) (node : NodeId) (args : List Arg) (host : Host) : Act World Host := do
  match (← get).cell hook with
  | .hook label false =>
      World.write s!"{label} remove {node.mark} {(argAt args 0).toText}"
      pure (host.removeAttribute node label)
  | _ => pure host

/-- Makes a component, whose id is the next place in the table. -/
def create (factory : Factory) (props : Arg) : Act World Unit := do
  match (← get).cell factory.identity with
  | .factory description =>
      modify fun world => { world with components := world.components.push ⟨description, props⟩ }
  | _ => pure ()

/-- Asks a component for its output. A component without a view has an empty one. -/
def view (id : InstanceId) : Act World Sentence := do
  match (← get).components[id.index]? with
  | some c =>
      let d := c.description
      World.write s!"{d.definition} render"
      buildIn ctx (d.env.bind "props" c.props) ((ctx.views.lookup d.definition).getD [])
  | none => throw (.brokenOff "not a component")

/-- The line that a component leaves when it is told of its life. -/
def lifecycleText : Lifecycle → String
  | .willMount => "will_mount"
  | .didMount => "did_mount"
  | .setProps props => s!"set_props {props.toText}"
  | .willUnmount => "will_unmount"
  | .didUnmount => "did_unmount"

/-- Tells a component of its life. Only components that report take new props. -/
def lifecycle (id : InstanceId) (event : Lifecycle) : Act World Unit := do
  match (← get).components[id.index]? with
  | some c =>
      if c.description.reports then
        World.write s!"{c.description.definition} {lifecycleText event}"
        match event with
        | .setProps props => modify fun world => { world with
            components := world.components.modify id.index fun c => { c with props } }
        | _ => pure ()
  | none => pure ()

end Script

/-- The behaviour of scripts. -/
def Script.behaviour (ctx : Context) : Behaviour World where
  toInterpreter := Script.interpreter ctx
  render := Script.callRender ctx
  callback := Script.callCallback
  hookRender := Script.hookRender
  hookDiff := Script.hookDiff
  hookRemove := Script.hookRemove
  create := fun factory _ props => Script.create factory props
  view := Script.view ctx
  lifecycle := Script.lifecycle

end Parlance
