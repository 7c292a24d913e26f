import Parlance.Host.Tree
import Parlance.Session.HostCall

/-! The steps of a session. Every step leaves a report: its reply or the error that it ended in, the lines
that scripts left in the journal, the mutations of the host, and the markup of the host. A step that
breaks off ends the session. -/

namespace Parlance

/-- How a view is put on the host. -/
inductive Showing where
  | render
  | diff
  | output
deriving DecidableEq

/-- What is done with a component. -/
inductive ComponentAct where
  | describe
  | update
  /-- Asks for the node of a name. -/
  | ref (name : String)
  /-- Keeps the component under a name. -/
  | hold (name : String)
  /-- Whether it is the one that is held under a name. -/
  | same (name : String)

/-- How a component is found. -/
inductive ComponentPath where
  | held (name : String)
  /-- By places among the components in the output of a slot, and then among their children. -/
  | path (slot : String) (places : List Nat)

/-- What is asked of a node beyond what is always answered. -/
structure NodeQuestions where
  attributes : List String
  properties : List String
  dataset : List String
  style : List String
  classes : List String

inductive Step where
  /-- Sets a name that is known everywhere. -/
  | define (name : String) (value : Expr)
  | present (how : Showing) (slot : String) (view : Expr) (parent : NodeRef)
  | remove (slot : String) (parent : NodeRef)
  | rendered (slot : String)
  | component (path : ComponentPath) (act : ComponentAct)
  | host (call : HostCall)
  | inspect (node : NodeRef) (questions : NodeQuestions)
  | dispatch (node : NodeRef) (event : Event)
  | engine (name : String)
  /-- Lets the engine interpret a further lexicon, by its key. -/
  | retarget (key : String)
  | debug
  | openStore (value : Expr)
  | updateStore (value : Expr)
  | emitStore
  | openApp (view : Expr) (parent : NodeRef) (follow : Bool)
  | schedule (value : Expr)
  | frame
  | unmount
  | appState

structure OutputReply where
  length : Nat
  nodes : List NodeId
  components : Nat

structure RenderedReply where
  length : Nat
  nodes : List NodeId
  sentence : String
  description : String
  components : List String

structure ComponentReply where
  name : String
  mounted : Bool
  witness : Option NodeId
  children : Nat
  description : String

structure NodeReply where
  node : NodeId
  kind : String
  children : List NodeId
  visible : List NodeId
  descendants : List NodeId
  parent : Option NodeId
  attached : Bool
  classes : List String
  id : Option String
  listeners : Nat
  text : String
  html : String
  attributes : List (Option String)
  properties : List (Option Scalar)
  dataset : List (Option String)
  style : List (Option String)
  hasClass : List Bool

structure EngineReply where
  targets : List String
  isTarget : Bool
  config : Config

inductive Reply where
  | nothing
  | flag (value : Bool)
  | count (value : Nat)
  | text (value : String)
  | node (n : NodeId)
  | output (reply : OutputReply)
  | rendered (reply : Option RenderedReply)
  | component (reply : ComponentReply)
  | host (reply : HostReply)
  | inspected (reply : NodeReply)
  | engine (reply : EngineReply)
  | app (state : Option DisplayState)
  /-- What came of an app's step, and its state afterwards. -/
  | played (frame : Option Bool) (state : Option DisplayState)

/-- What is known about a node. -/
def Host.inspect (h : Host) (n : NodeId) (q : NodeQuestions) : NodeReply :=
  let c := h.content n
  { node := n
    kind := Host.describeKind c.kind
    children := h.children n
    visible := h.visibleChildren n
    descendants := h.descendants n
    parent := h.parent n
    attached := h.isAttached n
    classes := c.classes
    id := c.id
    listeners := (h.node n).listeners.length
    text := h.textContent n
    html := h.toHtml n
    attributes := q.attributes.map c.attributes.get?
    properties := q.properties.map (h.property? n)
    dataset := q.dataset.map c.dataset.get?
    style := q.style.map c.style.get?
    hasClass := q.classes.map (h.hasClass n) }

namespace Session

def describeInstance (s : Session) (id : InstanceId) : Option ComponentReply :=
  (s.instance? id).map fun i =>
    ⟨i.factory.typeName, i.isMounted, i.witness, i.children.length, i.describe ++ " " ++ i.factory.describe⟩

def rendered? (s : Session) (slot : String) : Option RenderedReply :=
  (s.slots.get? slot).map fun r =>
    ⟨r.length, r.nodes s.stage.instances, r.sentence.describe, r.describe,
      r.components.filterMap fun id => (s.instance? id).map Instance.describe⟩

/-- Follows places among components and their children. -/
def follow (s : Session) : List InstanceId → List Nat → Option InstanceId
  | _, [] => none
  | ids, [place] => ids[place]?
  | ids, place :: places => do
      let id ← ids[place]?
      let i ← s.instance? id
      s.follow i.children places

/-- The component at a path. A slot without an output stands for the app. -/
def find? (s : Session) : ComponentPath → Option InstanceId
  | .held name => s.held.get? name
  | .path slot places =>
      let output := match s.slots.get? slot with
        | some r => some r
        | none => s.display.bind (·.app.rendered)
      output.bind fun r => s.follow r.components places

end Session

variable (ctx : Context) (h : Initializer)

namespace Play

/-- Evaluates an expression outside of every word. -/
def eval (e : Expr) : Play Arg := script (Script.eval ctx (Script.interpreter ctx) (.new h) e)

/-- The view of an app, which is told of the snapshot that it shows. -/
def viewOf (e : Expr) (snapshot : Snapshot Arg) : Act World Sentence := do
  World.write "view"
  let env := (Env.new h).bind "snapshot" snapshot.value
  Script.closed (Script.evalSentence ctx (Script.interpreter ctx) env e)

def summary (r : Rendered) : Play Reply := do
  pure (.output ⟨r.length, r.nodes (← get).stage.instances, r.components.length⟩)

/-- Puts a view into a slot. The output that was there is lost if the pass fails. -/
def present (how : Showing) (slot : String) (view : Expr) (parent : NodeRef) : Play Reply := do
  let s ← script (Script.evalSentence ctx (Script.interpreter ctx) (.new h) view)
  let parent ← parent.resolve
  let previous := (← get).slots.get? slot
  if how = .diff && previous.isNone then fail .nothingRendered
  edit fun session => { session with slots := session.slots.erase slot }
  unless s.lexems.isEmpty do known parent
  let b := Script.behaviour ctx
  let engine := (← get).engine
  let r ← pass (engine.output b parent s (if how = .render then none else previous))
  edit fun session => { session with slots := session.slots.put slot r }
  summary r

def remove (slot : String) (parent : NodeRef) : Play Reply := do
  let parent ← parent.resolve
  match (← get).slots.get? slot with
  | none => fail .nothingRendered
  | some r =>
      edit fun session => { session with slots := session.slots.erase slot }
      unless r.slots.isEmpty do known parent
      pass (Engine.remove (Script.behaviour ctx) parent r)
      pure .nothing

def component (path : ComponentPath) (action : ComponentAct) : Play Reply := do
  let session ← get
  match session.find? path with
  | none => fail .noComponent
  | some id =>
      match action with
      | .describe =>
          match session.describeInstance id with
          | some reply => pure (.component reply)
          | none => fail .noComponent
      | .update => do
          pass (Engine.updateComponent (Script.behaviour ctx) id)
          pure .nothing
      | .ref name =>
          match session.instance? id with
          | some i => do pure (.node (← pass (Pass.ofExcept (i.nodeRef name))))
          | none => fail .noComponent
      | .hold name => do
          edit fun session => { session with held := session.held.put name id }
          pure .nothing
      | .same name => pure (.flag (session.held.get? name = some id))

/-- Fires an event on a node. What the event calls is settled before the first call. -/
def dispatch (node : NodeRef) (event : Event) : Play Reply := do
  let n ← node.resolve
  known n
  let listeners := (← get).host.heard n event.name
  listeners.forM fun l => act (Script.callHandler ctx l.handler event l.extra)
  deliver
  pure (.count listeners.length)

/-- A new app, with a copy of the engine. An app that follows the store renders its snapshot first. -/
def openApp (view : Expr) (parent : NodeRef) (follow : Bool) : Play Reply := do
  let parent ← parent.resolve
  let session ← get
  let number := session.displays
  let app := App.new session.engine parent
  let app := match follow, session.world.store with
    | true, some store => app.schedule store.current
    | _, _ => app
  edit fun session => { session with display := some ⟨number, app, view⟩, displays := number + 1 }
  if follow then act (World.follow (.app number))
  pure (.app (← displayState))

/-- A frame of an app. The view is asked for before the node of the app is looked at. -/
def frame (d : Display) : Play (Option Bool) := do
  let view := viewOf ctx h d.view
  if !(← get).host.has d.app.root then
    if let some snapshot := d.app.frames.take.1 then
      let _ ← act (view snapshot)
      known d.app.root
  pure (some (← onDisplay d (App.frame (Script.behaviour ctx) view)))

/-- A step of the app, if there is one. -/
def withDisplay (action : Display → Play (Option Bool)) : Play Reply := do
  let frame ← match (← get).display with
    | some d => action d
    | none => pure none
  pure (.played frame (← displayState))

end Play

def Step.perform : Step → Play Reply
  | .define name value => do
      let value ← Play.eval ctx h value
      Play.edit (·.editWorld (World.setGlobal name value))
      pure .nothing
  | .present how slot view parent => Play.present ctx h how slot view parent
  | .remove slot parent => Play.remove ctx slot parent
  | .rendered slot => do pure (.rendered ((← get).rendered? slot))
  | .component path action => Play.component ctx path action
  | .host call => do pure (.host (← call.perform))
  | .inspect node questions => do
      let n ← node.resolve
      Play.known n
      pure (.inspected ((← get).host.inspect n questions))
  | .dispatch node event => Play.dispatch ctx node event
  | .engine name => do
      let e := (← get).engine
      pure (.engine ⟨e.targets.names, e.isTarget name, e.config⟩)
  | .retarget key => do
      let lexicon ← Play.script (.ofExcept (ctx.lexicon key))
      Play.edit fun session => { session with engine := session.engine.addLexicon lexicon }
      pure .nothing
  | .debug => do pure (.text (← get).host.describe)
  | .openStore value => do
      let value ← Play.eval ctx h value
      Play.act (World.openStore value)
      pure .nothing
  | .updateStore value => do
      Play.act (World.update fun snapshot => Script.closed
        (Script.eval ctx (Script.interpreter ctx) ((Env.new h).bind "snapshot" snapshot) value))
      Play.deliver
      pure (.app (← Play.displayState))
  | .emitStore => do
      Play.act World.emit
      Play.deliver
      pure (.app (← Play.displayState))
  | .openApp view parent follow => Play.openApp view parent follow
  | .schedule value => do
      let value ← Play.eval ctx h value
      let identity ← Play.act World.fresh
      Play.withDisplay fun d => do
        let app := d.app.schedule ⟨identity, value⟩
        Play.edit fun session => { session with display := some { d with app } }
        pure none
  | .frame => Play.withDisplay (Play.frame ctx h)
  | .unmount => Play.withDisplay fun d => do
      Play.onDisplay d (App.unmount (Script.behaviour ctx))
      pure none
  | .appState => do pure (.app (← Play.displayState))

/-- How a step ended. -/
inductive Outcome where
  | reply (reply : Reply)
  | error (error : SessionError)
  | trouble (trouble : Trouble)

/-- What a step leaves behind. -/
structure Report where
  outcome : Outcome
  journal : List String
  mutations : List String
  markup : String

namespace Session

/-- Performs a step, and gives the session with its journal and its mutations forgotten. -/
def perform (s : Session) (step : Step) : Report × Session :=
  let (outcome, s) := match step.perform ctx h s with
    | .ok reply s => (Outcome.reply reply, s)
    | .error (.error e) s => (Outcome.error e, s)
    | .error (.trouble t) s => (Outcome.trouble t, s)
  let report : Report :=
    ⟨outcome, s.world.journal.toList, s.host.mutations.toList.map Mutation.describe,
      s.host.toHtmlWithMarkers Host.root⟩
  (report, (s.editHost Host.clearMutations).editWorld World.clearJournal)

/-- The reports of steps, up to the first that breaks off. -/
def run (s : Session) : List Step → List Report
  | [] => []
  | step :: steps =>
      let (report, s) := s.perform ctx h step
      match report.outcome with
      | .trouble _ => [report]
      | _ => report :: s.run steps

end Session

end Parlance
