import Parlance.Script.Setup

/-! Questions about lexicons, and a registry that is changed between them. -/

namespace Parlance

inductive LexiconQuery where
  | kind (key word : String)
  /-- Whether a word is defined, and whether it can be developed. -/
  | has (key word : String)
  | own (key : String)
  | chain (key : String)
  | parent (key : String)
  | debug (key : String)
  | names
  | contains (name : String)
  /-- The own words of the lexicon that is registered under a name. -/
  | get (name : String)
  | new
  | register (key : String)
  | registerAll (key : String)

inductive LexiconAnswer where
  | nothing
  | kind (kind : Option WordKind)
  | flags (flags : List Bool)
  | names (names : List String)
  | name (name : Option String)
  | text (text : String)
  | registry (names : List String) (isEmpty : Bool)
  | flag (flag : Bool)

namespace LexiconQuery

def answer (ctx : Context) (r : Registry) : LexiconQuery → Except ScriptError (LexiconAnswer × Registry)
  | kind key word => do pure (.kind ((← ctx.lexicon key).kindOf word), r)
  | has key word => do
      let lexicon ← ctx.lexicon key
      pure (.flags [lexicon.hasWord word, lexicon.develops word], r)
  | own key => do pure (.names (← ctx.lexicon key).ownWords, r)
  | chain key => do pure (.names ((← ctx.lexicon key).chain.map (·.name)), r)
  | parent key => do pure (.name ((← ctx.lexicon key).parent.map (·.name)), r)
  | debug key => do pure (.text (← ctx.lexicon key).describe, r)
  | names => pure (.registry r.names r.names.isEmpty, r)
  | contains name => pure (.flag (r.contains name), r)
  | get name =>
      match r.get name with
      | .ok lexicon => pure (.names lexicon.ownWords, r)
      | .error e => throw (.vocabulary e)
  | new => pure (.nothing, Registry.empty)
  | register key => do pure (.nothing, r.register (← ctx.lexicon key))
  | registerAll key => do pure (.nothing, r.registerWithAncestors (← ctx.lexicon key))

/-- The answers to queries in order. A query that fails leaves the registry as it was. -/
def run (ctx : Context) (r : Registry) : List LexiconQuery → List (Except ScriptError LexiconAnswer)
  | [] => []
  | q :: qs =>
      match q.answer ctx r with
      | .ok (answer, r) => .ok answer :: run ctx r qs
      | .error e => .error e :: run ctx r qs

end LexiconQuery

end Parlance
