import Parlance.Lexicon.Call
import Parlance.Json.Problem

/-! Documents: sentences as plain data, with lexicons by name. Only scalars, lists and sentences have a
form in a document. Turning a document into a sentence needs a registry that holds every lexicon the
document names, and every word has to be defined in the lexicon of its lexem. -/

namespace Parlance

mutual

inductive ArgDoc where
  | null
  | bool (value : Bool)
  | number (value : Number)
  | str (value : String)
  | sentence (value : SentenceDoc)
  | list (items : List ArgDoc)

structure LexemDoc where
  space : String
  name : String
  args : List ArgDoc

structure SentenceDoc where
  lexicon : String
  level : Level
  lexems : List LexemDoc

end

inductive DocumentError where
  | malformed (problem : Json.Problem)
  | vocabulary (error : LexiconError)
  | withoutForm (word : String) (index : Nat) (kind : String)

def DocumentError.message : DocumentError → String
  | .malformed problem => "Invalid sentence document: " ++ problem.message
  | .vocabulary error => error.message
  | .withoutForm word index kind => s!"Argument {index} of `{word}` is {kind} and has no document form"

mutual

/-- Equality of documents; numbers compare as numbers do. -/
def ArgDoc.equals : ArgDoc → ArgDoc → Bool
  | .null, .null => true
  | .bool a, .bool b => a = b
  | .number a, .number b => a.equals b
  | .str a, .str b => a = b
  | .sentence a, .sentence b => a.equals b
  | .list as, .list bs => equalArgs as bs
  | _, _ => false

def equalArgs : List ArgDoc → List ArgDoc → Bool
  | [], [] => true
  | a :: as, b :: bs => a.equals b && equalArgs as bs
  | _, _ => false

def LexemDoc.equals : LexemDoc → LexemDoc → Bool
  | ⟨space, name, args⟩, ⟨space', name', args'⟩ => space = space' && name = name' && equalArgs args args'

def SentenceDoc.equals : SentenceDoc → SentenceDoc → Bool
  | ⟨lexicon, level, lexems⟩, ⟨lexicon', level', lexems'⟩ =>
      lexicon = lexicon' && level = level' && equalLexems lexems lexems'

def equalLexems : List LexemDoc → List LexemDoc → Bool
  | [], [] => true
  | a :: as, b :: bs => a.equals b && equalLexems as bs
  | _, _ => false

end

mutual

/-- The document form of an argument that stands at a place among the arguments of a word. -/
def Arg.toDoc (word : String) (index : Nat) : Arg → Except DocumentError ArgDoc
  | .null => .ok .null
  | .bool b => .ok (.bool b)
  | .number n => .ok (.number n)
  | .str s => .ok (.str s)
  | .sentence _ s => do pure (.sentence (← s.toDoc))
  | .list _ items => do pure (.list (← itemsToDocs word index items))
  | other => .error (.withoutForm word index other.kind)

/-- The items of a list, all of which stand at the place of the list. -/
def itemsToDocs (word : String) (index : Nat) : List Arg → Except DocumentError (List ArgDoc)
  | [] => .ok []
  | a :: as => do
      let doc ← a.toDoc word index
      pure (doc :: (← itemsToDocs word index as))

/-- The arguments of a word, from a place on. -/
def argsToDocs (word : String) (index : Nat) : List Arg → Except DocumentError (List ArgDoc)
  | [] => .ok []
  | a :: as => do
      let doc ← a.toDoc word index
      pure (doc :: (← argsToDocs word (index + 1) as))

def lexemsToDocs : List Lexem → Except DocumentError (List LexemDoc)
  | [] => .ok []
  | ⟨space, name, args⟩ :: lexems => do
      let args ← argsToDocs name 0 args
      pure (⟨space, name, args⟩ :: (← lexemsToDocs lexems))

def Sentence.toDoc : Sentence → Except DocumentError SentenceDoc
  | ⟨lexicon, level, lexems⟩ => do pure ⟨lexicon.name, level, ← lexemsToDocs lexems⟩

end

variable {ω : Type} (i : Interpreter ω) (registry : Registry)

mutual

def ArgDoc.toArg : ArgDoc → Attempt DocumentError ω Arg
  | .null => pure .null
  | .bool b => pure (.bool b)
  | .number n => pure (.number n)
  | .str s => pure (.str s)
  | .sentence doc => do
      let s ← doc.toSentence
      pure (.sentence (← .ofAct i.fresh) s)
  | .list items => do
      let items ← docsToArgs items
      pure (.list (← .ofAct i.fresh) items)

def docsToArgs : List ArgDoc → Attempt DocumentError ω (List Arg)
  | [] => pure []
  | d :: ds => do
      let a ← d.toArg
      pure (a :: (← docsToArgs ds))

def docsToLexems : List LexemDoc → Attempt DocumentError ω (List Lexem)
  | [] => pure []
  | ⟨space, name, args⟩ :: docs => do
      match registry.get? space with
      | none => throw (.error (.vocabulary (.unknownLexicon space)))
      | some lexicon =>
          if lexicon.hasWord name then
            let args ← docsToArgs args
            pure (⟨space, name, args⟩ :: (← docsToLexems docs))
          else throw (.error (.vocabulary (.unknownWord space name)))

/-- The sentence of a document, with the lexicons of a registry. The first violation in the order of the
document is reported: the lexicon of a sentence, then for every lexem its namespace, its word and its
arguments. -/
def SentenceDoc.toSentence : SentenceDoc → Attempt DocumentError ω Sentence
  | ⟨lexiconName, level, lexems⟩ => do
      match registry.get? lexiconName with
      | none => throw (.error (.vocabulary (.unknownLexicon lexiconName)))
      | some lexicon => pure ⟨lexicon, level, ← docsToLexems lexems⟩

end

end Parlance
