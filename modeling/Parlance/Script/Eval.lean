import Parlance.Document.Format
import Parlance.Html.Methods
import Parlance.Script.World

/-! Evaluating expressions and building sentences from calls. Evaluation follows the shape of the terms;
only calls of words lead elsewhere, and how the bodies of words are run is left to an interpreter. -/

namespace Parlance

/-- A mistake in a script. -/
inductive ScriptError where
  | vocabulary (error : LexiconError)
  /-- A document without a sentence in it. -/
  | document
  /-- A key under which there is no lexicon. -/
  | unknownKey (key : String)
  | unknownMethod (name : String)
  | notASentence
deriving DecidableEq

def ScriptError.message : ScriptError → String
  | vocabulary error => error.message
  | document => ""
  | unknownKey key => s!"no lexicon {key}"
  | unknownMethod name => s!"no method {name}"
  | notASentence => "not a sentence"

/-- The lexicon under a key. -/
def Context.lexicon (ctx : Context) (key : String) : Except ScriptError Lexicon :=
  match ctx.lexicons.lookup key with
  | some lexicon => .ok lexicon
  | none => .error (.unknownKey key)

/-- The whole number in an argument, without its sign and fraction as far as it has any; zero if there is
none. -/
def Arg.asIndex : Arg → Nat
  | .number n => if n.isFinite && !n.isNegative then n.wholePart else 0
  | _ => 0

namespace Script

variable (ctx : Context) (i : Interpreter World)

/-- An evaluation, which may fail by a mistake in the script. -/
abbrev Eval (α : Type) := Attempt ScriptError World α

/-- Calls that build a sentence inside a function, where a mistake breaks the action off. -/
def closed {α : Type} (eval : Eval α) : Act World α := eval.orBreakOff ScriptError.message

/-- A new list. -/
def newList (items : List Arg) : Eval Arg := do pure (.list (← .ofAct World.fresh) items)

/-- The text in a record of text. -/
def recordText? (arg : Arg) : Eval (Option String) := do
  match arg with
  | .data identity =>
      match (← get).cell identity with
      | .record (.text text) => pure (some text)
      | _ => pure none
  | _ => pure none

/-- Calls a typed method of the built-in vocabulary; a word that is not defined breaks the action
off. -/
def callMethod (s : Sentence) (name : String) (args : List Arg) : Eval Sentence :=
  match Html.method? name with
  | none => throw (.error (.unknownMethod name))
  | some method => .ofAct do
      let args ← method.argsFor i args
      (s.tryCall i method.word args).orBreakOff LexiconError.message

/-- One round for every item of a list, counting from an index; the sentences are spliced. -/
def spliceItems (round : Arg → Nat → Act World Sentence) (s : Sentence) (index : Nat) :
    List Arg → Act World Sentence
  | [] => pure s
  | item :: items => do
      let produced ← round item index
      spliceItems round (s.splice produced) (index + 1) items

/-- An environment with the item of a list and its index. -/
def withItem (env : Env) (item : Arg) (index : Nat) : Env :=
  (env.bind "item" item).bind "index" (.number (.ofNat index))

/-- The environment inside a sentence with a lexicon or a level of its own. -/
def within (env : Env) (lexicon : Option String) (level : Option Level) : Except ScriptError Env := do
  let lexicon ← match lexicon with
    | some key => ctx.lexicon key
    | none => pure env.initializer.lexicon
  pure { env with initializer := ⟨lexicon, level.getD env.initializer.level⟩ }

mutual

def eval (env : Env) : Expr → Eval Arg
  | .null => pure .null
  | .bool b => pure (.bool b)
  | .number n => pure (.number n)
  | .str s => pure (.str s)
  | .sentence calls lexicon level => do
      let env ← .ofExcept (within ctx env lexicon level)
      let s ← build env env.initializer.empty calls
      pure (.sentence (← .ofAct World.fresh) s)
  | .document text => do
      let s ← (Sentence.ofText i ctx.registry text).mapError fun
        | .vocabulary error => .vocabulary error
        | _ => .document
      pure (.sentence (← .ofAct World.fresh) s)
  | .list items => do newList (← evalArgs env items)
  | .record content => do pure (.data (← .ofAct (World.alloc (.record content))))
  | .field record => do
      match ← recordText? (← eval env record) with
      | some text => pure (.str text)
      | none => pure .null
  | .edit record suffix => do
      let record ← eval env record
      let suffix ← eval env suffix
      match ← recordText? record with
      | some text => do pure (.data (← .ofAct (World.alloc (.record (.text (text ++ suffix.toText))))))
      | none => pure .null
  | .name name => do
      match env.names.get? name with
      | some value => pure value
      | none => pure (((← get).globals.get? name).getD .null)
  | .arg index => pure (argAt env.args index)
  | .rest start => newList (env.args.drop start)
  | .given value => eval env value
  | .render calls label => do pure (.render (← .ofAct (World.alloc (.render env calls label))))
  | .handler label update => do pure (.handler (← .ofAct (World.alloc (.handler env label update))))
  | .callback label => do pure (.callback (← .ofAct (World.alloc (.callback label))))
  | .hook label bare => do pure (.hook (← .ofAct (World.alloc (.hook label bare))))
  | .component typeName reports definition => do
      let identity ← .ofAct (World.alloc (.factory ⟨env, definition, reports⟩))
      pure (.component ⟨typeName, identity⟩)
  | .join parts => do pure (.str (String.join ((← evalArgs env parts).map Arg.toText)))
  | .sum parts => do
      let add (total : Number) (part : Arg) : Number := match part with
        | .number n => total.add n
        | _ => total
      pure (.number ((← evalArgs env parts).foldl add .zero))
  | .push list item => do
      let list ← eval env list
      let item ← eval env item
      newList (list.items ++ [item])
  | .drop list index => do
      let list ← eval env list
      let index ← eval env index
      newList (list.items.eraseIdx index.asIndex)
  | .nth list index => do
      let list ← eval env list
      let index ← eval env index
      pure (argAt list.items index.asIndex)
  | .length list => do pure (.number (.ofNat (← eval env list).items.length))
  | .truthy value => do pure (.bool (← eval env value).isTruthy)
  | .negation value => do pure (.bool !(← eval env value).isTruthy)
  | .same left right => do
      let left ← eval env left
      let right ← eval env right
      pure (.bool (left.same right))
  | .choose condition yes no => do
      let condition ← eval env condition
      let yes ← eval env yes
      let no ← eval env no
      pure (if condition.isTruthy then yes else no)

/-- Evaluates a list of arguments, in which some expressions stand for several arguments or for none. -/
def evalArgs (env : Env) : List Expr → Eval (List Arg)
  | [] => pure []
  | .rest start :: rest => do pure (env.args.drop start ++ (← evalArgs env rest))
  | .given value :: rest => do
      let value ← eval env value
      let rest ← evalArgs env rest
      pure (if value.isNull then rest else value :: rest)
  | e :: rest => do
      let value ← eval env e
      pure (value :: (← evalArgs env rest))

/-- Extends a sentence by calls. -/
def build (env : Env) (s : Sentence) : List Call → Eval Sentence
  | [] => pure s
  | c :: calls => do
      let s ← call env s c
      build env s calls

/-- Extends a sentence by one call. -/
def call (env : Env) (s : Sentence) : Call → Eval Sentence
  | .word name args => do
      let args ← evalArgs env args
      (s.tryCall i name args).mapError .vocabulary
  | .method name args => do callMethod i s name (← evalArgs env args)
  | .append space name args => do pure (s.append space name (← evalArgs env args))
  | .branch condition yes no => do
      let condition ← eval env condition
      let yes ← build env env.initializer.empty yes
      let no ← buildOption env no
      pure (if condition.isTruthy then s.splice yes else match no with
        | some no => s.splice no
        | none => s)
  | .repeated items body => do
      let items ← eval env items
      let round (item : Arg) (index : Nat) : Act World Sentence :=
        closed (build (withItem env item index) env.initializer.empty body)
      .ofAct (spliceItems round s 0 items.items)
  | .splice sentence => do
      match ← eval env sentence with
      | .sentence _ other => pure (s.splice other)
      | _ => throw (.error .notASentence)
  | .reference reference args => do
      let args ← evalArgs env args
      (s.useReference i ctx.registry reference args).mapError .vocabulary
  | .continueWith lexicon =>
      match ctx.registry.get lexicon with
      | .ok lexicon => pure { s with lexicon }
      | .error error => throw (.error (.vocabulary error))

def buildOption (env : Env) : Option (List Call) → Eval (Option Sentence)
  | none => pure none
  | some calls => do pure (some (← build env env.initializer.empty calls))

end

/-- The sentence that an expression stands for. -/
def evalSentence (env : Env) (e : Expr) : Eval Sentence := do
  match ← eval ctx i env e with
  | .sentence _ s => pure s
  | _ => throw (.error .notASentence)

end Script

end Parlance
