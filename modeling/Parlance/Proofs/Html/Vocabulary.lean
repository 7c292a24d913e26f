import Mathlib.Data.List.Sort
import Mathlib.Data.String.Basic
import Parlance.Html.Vocabulary
import Parlance.Lexicon.Call
import Parlance.Proofs.Lexicon.Plain

/-! The words of the built-in vocabulary, part by part. A lexicon keeps its words in sorted order; what all words have
in common, and which words there are, is here read off the lists that the words were defined from. -/

namespace Parlance

namespace Entries

variable {α : Type} {name : String} {value : α} {entries : Entries α}

theorem mem_put {entry : String × α} (h : entry ∈ entries.put name value) : entry = (name, value) ∨ entry ∈ entries := by
  induction entries with
  | nil => exact .inl (List.mem_singleton.mp h)
  | cons first rest ih =>
      unfold put at h
      split at h
      · exact (List.mem_cons.mp h).imp_right (List.mem_cons_of_mem _)
      split at h
      · exact List.mem_cons.mp h
      · rcases List.mem_cons.mp h with heq | hrest
        · exact .inr (heq ▸ List.mem_cons_self)
        · exact (ih hrest).imp_right (List.mem_cons_of_mem _)

/-- The names of a dictionary increase. -/
def Ascending (entries : Entries α) : Prop := entries.Pairwise fun a b => a.1 < b.1

theorem Ascending.put (h : entries.Ascending) : (entries.put name value).Ascending := by
  induction entries with
  | nil => exact List.pairwise_singleton _ _
  | cons first rest ih =>
      obtain ⟨hfirst, hrest⟩ := List.pairwise_cons.mp h
      unfold Entries.put
      split
      next hname => exact List.pairwise_cons.mpr ⟨fun entry hentry => hname ▸ hfirst entry hentry, hrest⟩
      next hname =>
        split
        next hlt =>
          refine List.pairwise_cons.mpr ⟨fun entry hentry => ?_, h⟩
          rcases List.mem_cons.mp hentry with heq | hentry
          · exact heq ▸ hlt
          · exact hlt.trans (hfirst entry hentry)
        next hlt =>
          refine List.pairwise_cons.mpr ⟨fun entry hentry => ?_, ih hrest⟩
          rcases mem_put hentry with heq | hentry
          · exact heq ▸ lt_of_le_of_ne (not_lt.mp hlt) hname
          · exact hfirst entry hentry

theorem Ascending.nodup_names (h : entries.Ascending) : entries.names.Nodup :=
  List.pairwise_map.mpr (h.imp fun hlt => hlt.ne)

/-- Dictionaries with the same entries are equal. -/
theorem Ascending.ext {entries' : Entries α} (h : entries.Ascending) (h' : entries'.Ascending)
    (hsame : ∀ entry, entry ∈ entries ↔ entry ∈ entries') : entries = entries' := by
  have hnodup : ∀ {es : Entries α}, es.Ascending → es.Nodup := fun hes => hes.imp fun hlt heq => hlt.ne (congrArg _ heq)
  have hperm := (List.perm_ext_iff_of_nodup (hnodup h) (hnodup h')).mpr hsame
  exact hperm.eq_of_pairwise (fun _ _ _ _ hlt hgt => absurd hgt (lt_asymm hlt)) h h'

end Entries

namespace Lexicon

variable {α : Type} {lexicon : Lexicon} {name : α → String} {word : α → Word} {as : List α}

/-- Definitions under other names leave a word as it is. -/
theorem get?_defineAll_of_not_mem {n : String} (hn : n ∉ as.map name) :
    (as.foldl (fun l a => l.define (name a) (word a)) lexicon).words.get? n = lexicon.words.get? n := by
  induction as generalizing lexicon with
  | nil => rfl
  | cons a as ih =>
      rw [List.map_cons, List.mem_cons, not_or] at hn
      rw [List.foldl_cons, ih hn.2, define, Entries.get?_put, if_neg hn.1]

/-- Words that are defined under their own names hold. -/
theorem get?_defineAll_of_mem (word : String → Word) {names : List String} {n : String} (hn : n ∈ names) :
    (names.foldl (fun l n => l.define n (word n)) lexicon).words.get? n = some (word n) := by
  induction names generalizing lexicon with
  | nil => cases hn
  | cons first names ih =>
      rw [List.foldl_cons]
      by_cases hlater : n ∈ names
      · exact ih hlater
      · obtain rfl : n = first := (List.mem_cons.mp hn).resolve_right hlater
        rw [get?_defineAll_of_not_mem (by simpa using hlater), define, Entries.get?_put, if_pos rfl]

/-- What holds of the words of a lexicon and of new words holds of the words after these are defined. -/
theorem forall_defineAll {P : String → Word → Prop} (hlexicon : ∀ entry ∈ lexicon.words, P entry.1 entry.2)
    (has : ∀ a ∈ as, P (name a) (word a)) :
    ∀ entry ∈ (as.foldl (fun l a => l.define (name a) (word a)) lexicon).words, P entry.1 entry.2 := by
  induction as generalizing lexicon with
  | nil => exact hlexicon
  | cons a as ih =>
      refine ih (fun entry hentry => ?_) fun a' ha' => has a' (List.mem_cons_of_mem _ ha')
      rcases Entries.mem_put hentry with heq | hentry
      · exact heq ▸ has a List.mem_cons_self
      · exact hlexicon entry hentry

theorem ascending_defineAll (h : lexicon.words.Ascending) :
    (as.foldl (fun l a => l.define (name a) (word a)) lexicon).words.Ascending := by
  induction as generalizing lexicon with
  | nil => exact h
  | cons a as ih => exact ih h.put

theorem hasWord_split (l : Lexicon) (n : String) :
    l.hasWord n = ((l.words.get? n).isSome || l.parent.any fun p => p.hasWord n) := by
  rcases l with ⟨_, _ | _, words⟩ <;> simp only [hasWord, resolve, chain, List.findSome?_cons] <;>
    cases words.get? n <;> simp

theorem hasWord_define (lexicon : Lexicon) (name : String) (word : Word) (n : String) :
    (lexicon.define name word).hasWord n = (decide (n = name) || lexicon.hasWord n) := by
  rw [hasWord_split, hasWord_split lexicon, ← Bool.or_assoc]
  unfold define
  rw [Entries.get?_put]
  by_cases hname : n = name <;> simp [hname]

theorem hasWord_defineAll (n : String) : (as.foldl (fun l a => l.define (name a) (word a)) lexicon).hasWord n =
    (decide (n ∈ as.map name) || lexicon.hasWord n) := by
  induction as generalizing lexicon with
  | nil => simp
  | cons a as ih =>
      rw [List.foldl_cons, ih, hasWord_define, List.map_cons, ← Bool.or_assoc, Bool.or_comm (decide (n ∈ _))]
      simp only [List.mem_cons, Bool.decide_or]

theorem hasWord_of_mem_ownWords {n : String} {owner : Lexicon} (howner : owner ∈ lexicon.chain) (hn : n ∈ owner.ownWords) :
    lexicon.hasWord n = true := by
  obtain ⟨entry, hentry, rfl⟩ := List.mem_map.mp hn
  have hsome : ∀ entries : Entries Word, entry ∈ entries → ∃ word, entries.get? entry.1 = some word := by
    intro entries hmem
    induction entries with
    | nil => cases hmem
    | cons first rest ih =>
        unfold Entries.get?
        split
        · exact ⟨_, rfl⟩
        next hne => exact ih ((List.mem_cons.mp hmem).resolve_left fun heq => hne (heq ▸ rfl))
  obtain ⟨_, hword⟩ := hsome _ hentry
  exact hasWord_of_get? howner hword

section Dialect

variable {parent : Lexicon} {space : String} {bodies : List (String × Body)}

/-- A dialect adds compounds to the words of its parent. -/
theorem chain_dialect : ((new space (some parent)).addCompounds bodies).chain =
    (new space (some parent)).addCompounds bodies :: parent.chain := by
  have hchain : ∀ l : Lexicon, (l.addCompounds bodies).chain = l.addCompounds bodies :: l.chain.tail := by
    intro l
    unfold addCompounds
    induction bodies generalizing l with
    | nil => rcases l with ⟨_, _ | _, _⟩ <;> rfl
    | cons b bodies ih =>
        rw [List.foldl_cons, ih]
        rcases l with ⟨_, _ | _, _⟩ <;> rfl
  exact hchain _

theorem name_dialect : ((new space (some parent)).addCompounds bodies).name = space := by
  have hname : ∀ l : Lexicon, (l.addCompounds bodies).name = l.name := by
    intro l
    unfold addCompounds
    induction bodies generalizing l with
    | nil => rfl
    | cons b bodies ih => rw [List.foldl_cons, ih, define]
  exact hname _

theorem hasWord_dialect : ((new space (some parent)).addCompounds bodies).hasWord =
    fun n => decide (n ∈ bodies.map (·.1)) || parent.hasWord n := by
  funext n
  rw [addCompounds, hasWord_defineAll, hasWord_split]
  rfl

theorem callOnly_dialect (hbodies : ∀ b ∈ bodies,
    plainCalls (fun n => decide (n ∈ bodies.map (·.1)) || parent.hasWord n) b.2.calls = true) :
    ((new space (some parent)).addCompounds bodies).CallOnly := by
  unfold CallOnly
  rw [hasWord_dialect]
  refine forall_defineAll (P := fun _ word => ∀ body ∈ word.body?,
    plainCalls (fun n => decide (n ∈ bodies.map (·.1)) || parent.hasWord n) body.calls = true)
    (fun _ hentry => absurd hentry List.not_mem_nil) fun b hb body hbody => ?_
  cases hbody
  exact hbodies b hb

/-- A dialect with new names only has no ambiguity that its parent does not have. -/
theorem Expandable.dialect (hparent : parent.Expandable) (hspace : space ∉ parent.chain.map Lexicon.name)
    (hnew : ∀ b ∈ bodies, parent.hasWord b.1 = false) (hbodies : ∀ b ∈ bodies,
      plainCalls (fun n => decide (n ∈ bodies.map (·.1)) || parent.hasWord n) b.2.calls = true) :
    ((new space (some parent)).addCompounds bodies).Expandable := by
  refine ⟨?_, ?_, ?_⟩
  · rw [chain_dialect, List.map_cons, name_dialect]
    exact List.nodup_cons.mpr ⟨hspace, hparent.names⟩
  · rw [chain_dialect, List.flatMap_cons]
    have hascending : (new space (some parent)).words.Ascending := List.Pairwise.nil
    refine List.nodup_append'.mpr ⟨(ascending_defineAll hascending).nodup_names, hparent.words, fun n hown hparents => ?_⟩
    obtain ⟨entry, hentry, rfl⟩ := List.mem_map.mp hown
    obtain ⟨owner, howner, hn⟩ := List.mem_flatMap.mp hparents
    have hword : parent.hasWord entry.1 = false :=
      forall_defineAll (P := fun name _ => parent.hasWord name = false)
        (fun _ hentry => absurd hentry List.not_mem_nil) hnew entry hentry
    exact absurd (hasWord_of_mem_ownWords howner hn) (by simp [hword])
  · rw [chain_dialect]
    exact List.forall_mem_cons.mpr ⟨callOnly_dialect hbodies, hparent.bodies⟩

end Dialect

end Lexicon

/-- A word that is found is applied. -/
theorem Sentence.tryCall_resolved {ω : Type} (i : Interpreter ω) {s : Sentence} {name : String} {owner : Lexicon}
    {word : Word} {args : List Arg} (hresolve : s.lexicon.resolve name = some (owner, word)) :
    s.tryCall i name args = .ofAct (word.apply i owner s name args) := by
  rw [Sentence.tryCall, hresolve]

namespace Html

variable {tag : String}

/-- A statement holds of all words of the vocabulary if it holds of the words of every part. -/
theorem forall_words {P : String → Word → Prop} (hatoms : ∀ name ∈ atoms, P name .atom)
    (haliases : ∀ entry ∈ aliases, P entry.1 (.alias entry.2)) (htags : ∀ tag ∈ tags, P tag (.compound (tagBody tag)))
    (hevents : ∀ event ∈ events, P event (.compound (eventBody event)))
    (hhelpers : ∀ entry ∈ helpers, P entry.1 (.compound entry.2)) : ∀ entry ∈ lexicon.words, P entry.1 entry.2 := by
  have hnone : ∀ entry ∈ (Lexicon.new space none).words, P entry.1 entry.2 := fun _ hentry => absurd hentry List.not_mem_nil
  refine Lexicon.forall_defineAll (Lexicon.forall_defineAll (Lexicon.forall_defineAll (Lexicon.forall_defineAll
    (Lexicon.forall_defineAll hnone hatoms) haliases) ?_) ?_) hhelpers
  · exact List.forall_mem_map.mpr htags
  · exact List.forall_mem_map.mpr hevents

theorem ascending_words : lexicon.words.Ascending := by
  have hnone : (Lexicon.new space none).words.Ascending := List.Pairwise.nil
  exact Lexicon.ascending_defineAll (Lexicon.ascending_defineAll (Lexicon.ascending_defineAll
    (Lexicon.ascending_defineAll (Lexicon.ascending_defineAll hnone))))

/-- No word of the vocabulary is defined twice. -/
theorem nodup_ownWords : lexicon.ownWords.Nodup := ascending_words.nodup_names

/-- The names of all words of the vocabulary, part by part. -/
def names : List String := atoms ++ aliases.map (·.1) ++ tags ++ events ++ helpers.map (·.1)

theorem hasWord_eq : lexicon.hasWord = fun name => decide (name ∈ names) := by
  funext name
  have hnone : (Lexicon.new space none).hasWord name = false := rfl
  rw [lexicon, Lexicon.addCompounds, Lexicon.hasWord_defineAll, Lexicon.addCompounds, Lexicon.hasWord_defineAll,
    Lexicon.addCompounds, Lexicon.hasWord_defineAll, Lexicon.addAliases, Lexicon.hasWord_defineAll, Lexicon.addAtoms,
    Lexicon.hasWord_defineAll, hnone, names]
  simp only [List.mem_append, List.map_map, Function.comp_def, List.map_id', Bool.decide_or, Bool.or_false]
  ac_rfl

theorem name_lexicon : lexicon.name = space := rfl

theorem chain_lexicon : lexicon.chain = [lexicon] := rfl

/-- The names in the order in which the vocabulary keeps its words. -/
def sorted : List String :=
  ["a", "article", "aside", "attr", "b", "blur", "body", "br", "button", "change", "checkbox", "class", "classes",
    "click", "code", "component", "data", "dblclick", "disabled", "display", "div", "dragover", "dragstart", "drop",
    "each", "em", "execute", "focus", "footer", "form", "h1", "h2", "h3", "h4", "h5", "header", "hr", "html", "i",
    "id", "if", "img", "input", "keydown", "keypress", "keyup", "label", "li", "link", "linkCss", "main", "meta",
    "mousedown", "mouseout", "mouseover", "mouseup", "nav", "nbsp", "on", "onDom", "option", "p", "passwordInput",
    "pre", "prop", "radio", "ref", "script", "section", "select", "small", "span", "strong", "style", "submit",
    "switchUse", "table", "tag", "tbody", "td", "text", "textInput", "textarea", "th", "thead", "title",
    "touchcancel", "touchend", "touchleave", "touchmove", "touchstart", "tr", "u", "ul", "visible"]

/-- What a name of the vocabulary stands for. -/
def meaning (name : String) : Word :=
  if name ∈ atoms then .atom
  else if name ∈ tags then .compound (tagBody name)
  else if name ∈ events then .compound (eventBody name)
  else match Entries.get? name aliases with
  | some body => .alias body
  | none => .compound ((Entries.get? name helpers).getD (body []))

theorem sorted_perm : sorted.Perm names := by decide

set_option maxRecDepth 4000 in
theorem sorted_ascending : sorted.Pairwise (· < ·) := by
  rw [← List.isChain_iff_pairwise]
  decide

theorem eq_meaning : ∀ entry ∈ lexicon.words, entry.2 = meaning entry.1 := by
  have htags : ∀ tag ∈ tags, tag ∉ atoms := by decide
  have hevents : ∀ event ∈ events, event ∉ atoms ∧ event ∉ tags := by decide
  refine forall_words (P := fun name word => word = meaning name) ?_ ?_ ?_ ?_ ?_
  · exact fun name hname => (if_pos hname).symm
  · simp only [aliases, List.forall_mem_cons, List.not_mem_nil, IsEmpty.forall_iff, implies_true, and_true]
    exact ⟨rfl, rfl, rfl⟩
  · intro tag htag
    rw [meaning, if_neg (htags tag htag), if_pos htag]
  · intro event hevent
    rw [meaning, if_neg (hevents event hevent).1, if_neg (hevents event hevent).2, if_pos hevent]
  · simp only [helpers, List.forall_mem_cons, List.not_mem_nil, IsEmpty.forall_iff, implies_true, and_true]
    exact ⟨rfl, rfl, rfl, rfl, rfl, rfl, rfl, rfl, rfl, rfl, rfl, rfl, rfl, rfl, rfl⟩

/-- The vocabulary with its words in order, so that it can be looked at without being put together first. -/
theorem lexicon_eq : lexicon = ⟨space, none, sorted.map fun name => (name, meaning name)⟩ := by
  have hascending : Entries.Ascending (sorted.map fun name => (name, meaning name)) :=
    List.pairwise_map.mpr sorted_ascending
  have hwords : lexicon.words = sorted.map fun name => (name, meaning name) := by
    refine ascending_words.ext hascending fun entry => ⟨fun hentry => ?_, fun hentry => ?_⟩
    · have hname : lexicon.hasWord entry.1 = true :=
        Lexicon.hasWord_of_mem_ownWords lexicon.mem_chain_self (List.mem_map_of_mem hentry)
      rw [hasWord_eq, decide_eq_true_iff, ← sorted_perm.mem_iff] at hname
      exact List.mem_map.mpr ⟨entry.1, hname, Prod.ext rfl (eq_meaning entry hentry).symm⟩
    · obtain ⟨name, hname, rfl⟩ := List.mem_map.mp hentry
      have hfound : lexicon.hasWord name = true := by
        rw [hasWord_eq, decide_eq_true_iff, ← sorted_perm.mem_iff]
        exact hname
      obtain ⟨⟨owner, word⟩, hresolve⟩ := Option.isSome_iff_exists.mp hfound
      obtain ⟨howner, hword⟩ := Lexicon.resolve_eq_some hresolve
      obtain rfl : owner = lexicon := List.mem_singleton.mp howner
      have hmem := Entries.mem_of_get? hword
      exact eq_meaning _ hmem ▸ hmem
  exact congrArg (Lexicon.mk space none) hwords

theorem lexicon_callOnly : lexicon.CallOnly := by
  unfold Lexicon.CallOnly
  rw [hasWord_eq]
  refine forall_words (P := fun _ word => ∀ body ∈ word.body?, plainCalls (fun name => decide (name ∈ names))
    body.calls = true) ?_ ?_ ?_ ?_ ?_ <;> decide

theorem lexicon_expandable : lexicon.Expandable := by
  refine ⟨List.nodup_singleton _, ?_, List.forall_mem_singleton.mpr lexicon_callOnly⟩
  rw [chain_lexicon, List.flatMap_singleton]
  exact nodup_ownWords

theorem lexicon_resolve (name : String) :
    lexicon.resolve name = (lexicon.words.get? name).map fun word => (lexicon, word) := by
  rw [Lexicon.resolve, chain_lexicon, List.findSome?_cons, List.findSome?_nil]
  cases lexicon.words.get? name <;> rfl

/-- No later word of the vocabulary takes the name of an atom. -/
theorem get?_atom {name : String} (hname : name ∈ atoms) : lexicon.words.get? name = some .atom := by
  have hlater : ∀ n ∈ atoms, n ∉ aliases.map (·.1) ∧ n ∉ (tags.map fun tag => (tag, tagBody tag)).map (·.1) ∧
      n ∉ (events.map fun event => (event, eventBody event)).map (·.1) ∧ n ∉ helpers.map (·.1) := by decide
  obtain ⟨haliases, htags, hevents, hhelpers⟩ := hlater name hname
  rw [lexicon, Lexicon.addCompounds, Lexicon.get?_defineAll_of_not_mem hhelpers, Lexicon.addCompounds,
    Lexicon.get?_defineAll_of_not_mem hevents, Lexicon.addCompounds, Lexicon.get?_defineAll_of_not_mem htags,
    Lexicon.addAliases, Lexicon.get?_defineAll_of_not_mem haliases, Lexicon.addAtoms]
  exact Lexicon.get?_defineAll_of_mem (fun _ => .atom) hname

theorem resolve_atom {name : String} (hname : name ∈ atoms) : lexicon.resolve name = some (lexicon, .atom) := by
  rw [lexicon_resolve, get?_atom hname]
  rfl

/-- No later word of the vocabulary takes the name of an alias. -/
theorem get?_alias {entry : String × Body} (hentry : entry ∈ aliases) :
    lexicon.words.get? entry.1 = some (.alias entry.2) := by
  have hlater : ∀ name ∈ aliases.map (·.1), name ∉ (tags.map fun tag => (tag, tagBody tag)).map (·.1) ∧
      name ∉ (events.map fun event => (event, eventBody event)).map (·.1) ∧ name ∉ helpers.map (·.1) := by decide
  obtain ⟨htags, hevents, hhelpers⟩ := hlater _ (List.mem_map_of_mem hentry)
  rw [lexicon, Lexicon.addCompounds, Lexicon.get?_defineAll_of_not_mem hhelpers, Lexicon.addCompounds,
    Lexicon.get?_defineAll_of_not_mem hevents, Lexicon.addCompounds, Lexicon.get?_defineAll_of_not_mem htags]
  simp only [aliases, List.mem_cons, List.not_mem_nil, or_false] at hentry
  rcases hentry with rfl | rfl | rfl <;> simp [Lexicon.addAliases, aliases, Lexicon.define, Entries.get?_put]

/-- No later word of the vocabulary takes the name of a tag. -/
theorem resolve_tag (htag : tag ∈ tags) : lexicon.resolve tag = some (lexicon, .compound (tagBody tag)) := by
  have hlater : ∀ t ∈ tags, t ∉ (events.map fun event => (event, eventBody event)).map (·.1) ∧
      t ∉ helpers.map (·.1) := by decide
  obtain ⟨hevents, hhelpers⟩ := hlater tag htag
  have hget : lexicon.words.get? tag = some (.compound (tagBody tag)) := by
    rw [lexicon, Lexicon.addCompounds, Lexicon.get?_defineAll_of_not_mem hhelpers, Lexicon.addCompounds,
      Lexicon.get?_defineAll_of_not_mem hevents, Lexicon.addCompounds, List.foldl_map]
    exact Lexicon.get?_defineAll_of_mem (fun t => .compound (tagBody t)) htag
  rw [lexicon_resolve, hget]
  rfl

theorem tryCall_atom {ω : Type} (i : Interpreter ω) {s : Sentence} (hs : s.lexicon = lexicon) {name : String}
    (hname : name ∈ atoms) (args : List Arg) : s.tryCall i name args = pure (s.append space name args) := by
  have hresolve : s.lexicon.resolve name = some (lexicon, .atom) := by rw [hs, resolve_atom hname]
  rw [Sentence.tryCall_resolved i hresolve, Word.apply, name_lexicon]
  rfl

theorem develops_atom {name : String} (hname : name ∈ atoms) : lexicon.develops name = false := by
  rw [Lexicon.develops, Lexicon.kindOf, resolve_atom hname]
  rfl

end Html

end Parlance
