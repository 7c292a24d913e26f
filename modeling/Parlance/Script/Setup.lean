import Parlance.Html.Vocabulary
import Parlance.Script.Eval

/-! Setting up a context: lexicons are defined one after the other, each from scratch or as a dialect of one
that is already there, and the built-in vocabulary is always among them. -/

namespace Parlance

/-- Words that are defined together. -/
inductive WordGroup where
  | atoms (names : List String)
  | compounds (bodies : List (String × List Call))
  | aliases (bodies : List (String × List Call))

/-- A lexicon that is to be defined. -/
structure LexiconPlan where
  name : String
  key : String
  /-- The key of the lexicon that it is a dialect of. -/
  parent : Option String
  groups : List WordGroup

/-- The key of the built-in vocabulary. -/
def htmlKey : String := "html"

/-- A body that is announced by the lexicon that defines it and its word. -/
def announced (lexicon : String) (word : String × List Call) : String × Body :=
  (word.1, ⟨some s!"{lexicon}:{word.1}", word.2⟩)

def Lexicon.addGroup (lexicon : Lexicon) : WordGroup → Lexicon
  | .atoms names => lexicon.addAtoms names
  | .compounds bodies => lexicon.addCompounds (bodies.map (announced lexicon.name))
  | .aliases bodies => lexicon.addAliases (bodies.map (announced lexicon.name))

namespace Context

/-- A context without views that knows the built-in vocabulary by its key, and no lexicon by its name. -/
def bare : Context := ⟨Registry.empty, [(htmlKey, Html.lexicon)], []⟩

/-- Defines a lexicon; the newest lexicon under a key is the one that is found. -/
def define (ctx : Context) (plan : LexiconPlan) : Except ScriptError Context := do
  let parent ← plan.parent.mapM ctx.lexicon
  let lexicon := plan.groups.foldl Lexicon.addGroup (Lexicon.new plan.name parent)
  pure { ctx with lexicons := (plan.key, lexicon) :: ctx.lexicons }

/-- A context with lexicons and views. The registry holds the lexicons under the given keys, or else all of
them in order, and the built-in one last. -/
def ofPlans (plans : List LexiconPlan) (registered : Option (List String))
    (views : List (String × List Call)) : Except ScriptError Context := do
  let ctx ← plans.foldlM define bare
  let keys := registered.getD (plans.map (·.key) ++ [htmlKey])
  let lexicons ← keys.mapM ctx.lexicon
  pure { ctx with registry := lexicons.foldl Registry.register Registry.empty, views }

/-- The context of the built-in vocabulary alone. -/
def html : Context := { bare with registry := Registry.empty.register Html.lexicon }

end Context

end Parlance
