import Parlance.Host.Tree

/-! A reader of markup. It takes markup character by character: start tags with quoted attributes, end tags, comments,
and runs of text between them. Texts and values are decoded once they are complete. What is written of a tag, a comment
or a text is read back as it was, whatever the texts and values are. -/

namespace Parlance.Markup

/-- What a reader finds in markup. -/
inductive Token where
  | opening (tag : String) (attributes : List (String × String))
  | closing (tag : String)
  | comment (label : String)
  | text (value : String)
deriving DecidableEq

/-- Decodes the four entities, from left to right. -/
def decode : List Char → List Char
  | '&' :: 'a' :: 'm' :: 'p' :: ';' :: cs => '&' :: decode cs
  | '&' :: 'l' :: 't' :: ';' :: cs => '<' :: decode cs
  | '&' :: 'g' :: 't' :: ';' :: cs => '>' :: decode cs
  | '&' :: 'q' :: 'u' :: 'o' :: 't' :: ';' :: cs => '"' :: decode cs
  | c :: cs => c :: decode cs
  | [] => []

/-- A letter, a digit or a dash. -/
def nameChar (c : Char) : Bool := c.isAlphanum || c = '-'

/-- A name of letters, digits and dashes. -/
def Plain (name : String) : Prop := ∀ c ∈ name.toList, nameChar c = true

instance (name : String) : Decidable (Plain name) := List.decidableBAll _ name.toList

/-- What a reader is in the middle of, with what it has read of it. -/
inductive Reading where
  | text (run : List Char)
  /-- In the name of a start tag, or right after the bracket, where there is no name yet. -/
  | tag (name : List Char)
  | endTag (name : List Char)
  /-- In the name of an attribute, after the attributes that are read. -/
  | attribute (tag : List Char) (found : List (String × String)) (name : List Char)
  /-- After the sign between the name of an attribute and its value. -/
  | equals (tag : List Char) (found : List (String × String)) (name : List Char)
  | value (tag : List Char) (found : List (String × String)) (name value : List Char)
  /-- After the value of an attribute. -/
  | quoted (tag : List Char) (found : List (String × String))
  /-- After the bracket and the sign that open a comment. -/
  | bang
  | dash
  | comment (label : List Char)

/-- The text that a run stands for; no text where the run is empty. -/
def flush (run : List Char) : List Token := if run = [] then [] else [.text (String.ofList (decode run))]

/-- Reads on in the name of a start tag, or after a value in it. -/
def inTag (ts : List Token) (tag : List Char) (found : List (String × String)) (c : Char) (other : Option Reading) :
    Option (List Token × Reading) :=
  if c = '>' then some (ts ++ [.opening (String.ofList tag) found], .text [])
  else if c = ' ' then some (ts, .attribute tag found [])
  else other.map (ts, ·)

/-- Reads one character. -/
def step : List Token × Reading → Char → Option (List Token × Reading)
  | (ts, .text run), c => some (if c = '<' then (ts ++ flush run, .tag []) else (ts, .text (run ++ [c])))
  | (ts, .tag name), c =>
      if name = [] ∧ c = '/' then some (ts, .endTag [])
      else if name = [] ∧ c = '!' then some (ts, .bang)
      else inTag ts name [] c (if nameChar c then some (.tag (name ++ [c])) else none)
  | (ts, .quoted tag found), c => inTag ts tag found c none
  | (ts, .endTag name), c =>
      if c = '>' then some (ts ++ [.closing (String.ofList name)], .text [])
      else if nameChar c then some (ts, .endTag (name ++ [c])) else none
  | (ts, .attribute tag found name), c =>
      if c = '=' then some (ts, .equals tag found name)
      else if nameChar c then some (ts, .attribute tag found (name ++ [c])) else none
  | (ts, .equals tag found name), c => if c = '"' then some (ts, .value tag found name []) else none
  | (ts, .value tag found name value), c =>
      some (ts, if c = '"' then .quoted tag (found ++ [(String.ofList name, String.ofList (decode value))])
        else .value tag found name (value ++ [c]))
  | (ts, .bang), c => if c = '-' then some (ts, .dash) else none
  | (ts, .dash), c => if c = '-' then some (ts, .comment []) else none
  | (ts, .comment label), c =>
      some (if c = '>' ∧ ['-', '-'] <:+ label then
          (ts ++ [.comment (String.ofList (label.take (label.length - 2)))], .text [])
        else (ts, .comment (label ++ [c])))

/-- Reads on to the end, where no tag and no comment may be left open. -/
def tokensFrom (state : List Token × Reading) (cs : List Char) : Option (List Token) := do
  match ← cs.foldlM step state with
  | (ts, .text run) => some (ts ++ flush run)
  | _ => none

/-- The tokens of markup. -/
def tokens (markup : String) : Option (List Token) := tokensFrom ([], .text []) markup.toList

/-- What is written of a text. -/
def escaped (cs : List Char) : List Char := cs.flatMap escapeChar

/-- What is written of an attribute. -/
def attributeChars (entry : String × String) : List Char :=
  ' ' :: entry.1.toList ++ '=' :: '"' :: escaped entry.2.toList ++ ['"']

/-- What is written of a token. -/
def Token.chars : Token → List Char
  | .opening tag attributes => '<' :: tag.toList ++ attributes.flatMap attributeChars ++ ['>']
  | .closing tag => '<' :: '/' :: tag.toList ++ ['>']
  | .comment label => "<!--".toList ++ label.toList ++ "-->".toList
  | .text value => escaped value.toList

@[simp] theorem Token.chars_opening (tag : String) (attributes : List (String × String)) :
    (Token.opening tag attributes).chars = '<' :: tag.toList ++ attributes.flatMap attributeChars ++ ['>'] := rfl

@[simp] theorem Token.chars_closing (tag : String) :
    (Token.closing tag).chars = '<' :: '/' :: tag.toList ++ ['>'] := rfl

@[simp] theorem Token.chars_comment (label : String) :
    (Token.comment label).chars = "<!--".toList ++ label.toList ++ "-->".toList := rfl

@[simp] theorem Token.chars_text (value : String) : (Token.text value).chars = escaped value.toList := rfl

/-- Names and labels that can be told from what is around them. -/
def Token.Plain : Token → Prop
  | .opening tag attributes => Markup.Plain tag ∧ ∀ e ∈ attributes, Markup.Plain e.1
  | .closing tag => Markup.Plain tag
  | .comment label => Markup.Plain label
  | .text _ => True

section Escaping

theorem escapeChar_cases (c : Char) : c = '&' ∧ escapeChar c = "&amp;".toList ∨
    c = '<' ∧ escapeChar c = "&lt;".toList ∨ c = '>' ∧ escapeChar c = "&gt;".toList ∨
    c = '"' ∧ escapeChar c = "&quot;".toList ∨
    c ≠ '&' ∧ c ≠ '<' ∧ c ≠ '"' ∧ escapeChar c = [c] := by
  by_cases hamp : c = '&'
  · exact .inl ⟨hamp, by rw [escapeChar, if_pos hamp]⟩
  by_cases hlt : c = '<'
  · exact .inr (.inl ⟨hlt, by rw [escapeChar, if_neg hamp, if_pos hlt]⟩)
  by_cases hgt : c = '>'
  · exact .inr (.inr (.inl ⟨hgt, by rw [escapeChar, if_neg hamp, if_neg hlt, if_pos hgt]⟩))
  by_cases hquot : c = '"'
  · exact .inr (.inr (.inr (.inl ⟨hquot, by rw [escapeChar, if_neg hamp, if_neg hlt, if_neg hgt, if_pos hquot]⟩)))
  · refine .inr (.inr (.inr (.inr ⟨hamp, hlt, hquot, ?_⟩)))
    rw [escapeChar, if_neg hamp, if_neg hlt, if_neg hgt, if_neg hquot]

theorem decode_escapeChar (c : Char) (cs : List Char) : decode (escapeChar c ++ cs) = c :: decode cs := by
  rcases escapeChar_cases c with ⟨rfl, h⟩ | ⟨rfl, h⟩ | ⟨rfl, h⟩ | ⟨rfl, h⟩ | ⟨hamp, -, -, h⟩
  · rw [h]; rfl
  · rw [h]; rfl
  · rw [h]; rfl
  · rw [h]; rfl
  · rw [h, List.singleton_append, decode]
    all_goals intro _ hc; exact absurd hc hamp

/-- Decoding gives back what was escaped, also where it looks like an entity. -/
theorem decode_escaped (cs : List Char) : decode (escaped cs) = cs := by
  induction cs with
  | nil => rfl
  | cons c cs ih =>
      rw [escaped, List.flatMap_cons, decode_escapeChar]
      exact congrArg (c :: ·) ih

theorem escaped_append (cs ds : List Char) : escaped (cs ++ ds) = escaped cs ++ escaped ds := List.flatMap_append

theorem escaped_eq_nil {cs : List Char} : escaped cs = [] ↔ cs = [] := by
  refine ⟨fun h => ?_, fun h => by rw [h]; rfl⟩
  have hdecode := decode_escaped cs
  rw [h] at hdecode
  exact hdecode.symm

/-- Nothing that is escaped opens a tag, or ends a quoted value. -/
theorem not_mem_escaped {c : Char} (hc : c = '<' ∨ c = '"') (cs : List Char) : c ∉ escaped cs := by
  intro hmem
  obtain ⟨d, -, hd⟩ := List.mem_flatMap.mp hmem
  rcases escapeChar_cases d with ⟨-, h⟩ | ⟨-, h⟩ | ⟨-, h⟩ | ⟨-, h⟩ | ⟨-, hlt, hquot, h⟩
  · rcases hc with rfl | rfl <;> exact absurd hd (by rw [h]; decide)
  · rcases hc with rfl | rfl <;> exact absurd hd (by rw [h]; decide)
  · rcases hc with rfl | rfl <;> exact absurd hd (by rw [h]; decide)
  · rcases hc with rfl | rfl <;> exact absurd hd (by rw [h]; decide)
  · rw [h, List.mem_singleton] at hd
    rcases hc with rfl | rfl
    · exact hlt hd.symm
    · exact hquot hd.symm

end Escaping

section Reading

/-- From one state a reader comes to another. -/
def Reads (state : List Token × Reading) (cs : List Char) (state' : List Token × Reading) : Prop :=
  cs.foldlM step state = some state'

variable {state state' state'' : List Token × Reading} {ts : List Token} {tag name value run : List Char}
  {found : List (String × String)} {c : Char} {cs ds : List Char}

namespace Reads

theorem refl (state : List Token × Reading) : Reads state [] state := rfl

theorem cons (hstep : step state c = some state') (hrest : Reads state' cs state'') :
    Reads state (c :: cs) state'' := by
  rw [Reads, List.foldlM_cons, hstep]
  exact hrest

theorem one (hstep : step state c = some state') : Reads state [c] state' := cons hstep (refl state')

theorem append (hfirst : Reads state cs state') (hrest : Reads state' ds state'') : Reads state (cs ++ ds) state'' := by
  rw [Reads, List.foldlM_append, hfirst]
  exact hrest

/-- What is read goes on with every character. -/
theorem onwards {reading : List Char → Reading}
    (hstep : ∀ run, ∀ c ∈ cs, step (ts, reading run) c = some (ts, reading (run ++ [c]))) :
    Reads (ts, reading run) cs (ts, reading (run ++ cs)) := by
  induction cs generalizing run with
  | nil => rw [List.append_nil]; exact refl _
  | cons c cs ih =>
      have hrest : Reads (ts, reading (run ++ [c])) cs (ts, reading (run ++ [c] ++ cs)) :=
        ih fun run d hd => hstep run d (List.mem_cons_of_mem c hd)
      rw [List.append_assoc] at hrest
      exact cons (hstep run c List.mem_cons_self) hrest

end Reads

theorem step_text : step (ts, .text run) c =
    some (if c = '<' then (ts ++ flush run, .tag []) else (ts, .text (run ++ [c]))) := rfl

theorem step_tag : step (ts, .tag name) c =
    if name = [] ∧ c = '/' then some (ts, .endTag [])
    else if name = [] ∧ c = '!' then some (ts, .bang)
    else inTag ts name [] c (if nameChar c then some (.tag (name ++ [c])) else none) := rfl

theorem step_quoted : step (ts, .quoted tag found) c = inTag ts tag found c none := rfl

theorem step_endTag : step (ts, .endTag name) c =
    if c = '>' then some (ts ++ [.closing (String.ofList name)], .text [])
    else if nameChar c then some (ts, .endTag (name ++ [c])) else none := rfl

theorem step_attribute : step (ts, .attribute tag found name) c =
    if c = '=' then some (ts, .equals tag found name)
    else if nameChar c then some (ts, .attribute tag found (name ++ [c])) else none := rfl

theorem step_value : step (ts, .value tag found name value) c =
    some (ts, if c = '"' then .quoted tag (found ++ [(String.ofList name, String.ofList (decode value))])
      else .value tag found name (value ++ [c])) := rfl

theorem step_comment : step (ts, .comment run) c =
    some (if c = '>' ∧ ['-', '-'] <:+ run then
        (ts ++ [.comment (String.ofList (run.take (run.length - 2)))], .text [])
      else (ts, .comment (run ++ [c]))) := rfl

/-- A character of a name is none of the signs between names. -/
theorem nameChar_ne {c d : Char} (hc : nameChar c = true) (hd : nameChar d = false) : c ≠ d := by
  rintro rfl
  rw [hc] at hd
  cases hd

/-- Without an opening bracket a text goes on. -/
theorem reads_text (hcs : '<' ∉ cs) : Reads (ts, .text run) cs (ts, .text (run ++ cs)) := by
  refine .onwards fun run c hc => ?_
  have hne : c ≠ '<' := fun heq => hcs (heq ▸ hc)
  rw [step_text, if_neg hne]

/-- Without a quote a value goes on. -/
theorem reads_value (hcs : '"' ∉ cs) :
    Reads (ts, .value tag found name value) cs (ts, .value tag found name (value ++ cs)) := by
  refine .onwards fun run c hc => ?_
  have hne : c ≠ '"' := fun heq => hcs (heq ▸ hc)
  rw [step_value, if_neg hne]

/-- Without a closing bracket a comment goes on. -/
theorem reads_comment (hcs : '>' ∉ cs) : Reads (ts, .comment run) cs (ts, .comment (run ++ cs)) := by
  refine .onwards fun run c hc => ?_
  have hne : c ≠ '>' := fun heq => hcs (heq ▸ hc)
  rw [step_comment, if_neg fun hand => hne hand.1]

theorem reads_tag (hcs : ∀ c ∈ cs, nameChar c = true) : Reads (ts, .tag name) cs (ts, .tag (name ++ cs)) := by
  refine .onwards fun run c hc => ?_
  have hne : ∀ {d}, nameChar d = false → c ≠ d := nameChar_ne (hcs c hc)
  rw [step_tag, if_neg fun hand => hne rfl hand.2, if_neg fun hand => hne rfl hand.2, inTag,
    if_neg (hne rfl), if_neg (hne rfl), if_pos (hcs c hc)]
  rfl

theorem reads_endTag (hcs : ∀ c ∈ cs, nameChar c = true) : Reads (ts, .endTag name) cs (ts, .endTag (name ++ cs)) :=
  .onwards fun run c hc => by rw [step_endTag, if_neg (nameChar_ne (hcs c hc) rfl), if_pos (hcs c hc)]

theorem reads_attribute (hcs : ∀ c ∈ cs, nameChar c = true) :
    Reads (ts, .attribute tag found name) cs (ts, .attribute tag found (name ++ cs)) :=
  .onwards fun run c hc => by rw [step_attribute, if_neg (nameChar_ne (hcs c hc) rfl), if_pos (hcs c hc)]

/-- One attribute is read back. -/
theorem reads_attributeChars {entry : String × String} (hname : Plain entry.1) :
    Reads (ts, .quoted tag found) (attributeChars entry) (ts, .quoted tag (found ++ [entry])) := by
  have hquote : '"' ∉ escaped entry.2.toList := not_mem_escaped (.inr rfl) _
  have hentry :
      (String.ofList ([] ++ entry.1.toList), String.ofList (decode ([] ++ escaped entry.2.toList))) = entry := by
    rw [List.nil_append, List.nil_append, decode_escaped, String.ofList_toList, String.ofList_toList]
  refine .append (.append (.cons rfl (reads_attribute hname)) (.cons rfl (.cons rfl (reads_value hquote)))) (.one ?_)
  rw [step_value, if_pos rfl, hentry]

/-- The attributes of a start tag are read back, to the end of the tag. -/
theorem reads_attributes {attributes : List (String × String)} (hnames : ∀ e ∈ attributes, Plain e.1) :
    Reads (ts, .quoted tag found) (attributes.flatMap attributeChars ++ ['>'])
      (ts ++ [.opening (String.ofList tag) (found ++ attributes)], .text []) := by
  induction attributes generalizing found with
  | nil => rw [List.append_nil]; exact .one rfl
  | cons e attributes ih =>
      have hrest : Reads (ts, .quoted tag (found ++ [e])) (attributes.flatMap attributeChars ++ ['>'])
          (ts ++ [.opening (String.ofList tag) (found ++ [e] ++ attributes)], .text []) :=
        ih fun e' he' => hnames e' (List.mem_cons_of_mem e he')
      rw [List.append_assoc, List.singleton_append] at hrest
      rw [List.flatMap_cons, List.append_assoc]
      exact (reads_attributeChars (hnames e List.mem_cons_self)).append hrest

/-- Where the name of a start tag ends, the tag goes on as after a value. -/
theorem reads_afterName {attributes : List (String × String)}
    (h : Reads (ts, .quoted tag []) (attributes.flatMap attributeChars ++ ['>']) state) :
    Reads (ts, .tag tag) (attributes.flatMap attributeChars ++ ['>']) state := by
  have hstep : ∀ {c}, c = ' ' ∨ c = '>' → step (ts, .tag tag) c = step (ts, .quoted tag []) c := by
    rintro c (rfl | rfl)
    all_goals rw [step_tag, step_quoted, if_neg fun hand => absurd hand.2 (by decide),
      if_neg fun hand => absurd hand.2 (by decide)]; rfl
  cases attributes with
  | nil =>
      rw [Reads, List.flatMap_nil, List.nil_append, List.foldlM_cons, hstep (.inr rfl)]
      exact h
  | cons e attributes =>
      rw [Reads, List.flatMap_cons, attributeChars, List.cons_append, List.cons_append, List.cons_append,
        List.cons_append, List.foldlM_cons, hstep (.inl rfl)]
      exact h

/-- A token is read back, after the text before it. -/
theorem reads_opening {tag : String} {attributes : List (String × String)}
    (hplain : (Token.opening tag attributes).Plain) :
    Reads (ts, .text run) (Token.opening tag attributes).chars
      (ts ++ flush run ++ [.opening tag attributes], .text []) := by
  have hend : Reads (ts ++ flush run, .quoted tag.toList []) (attributes.flatMap attributeChars ++ ['>'])
      (ts ++ flush run ++ [.opening (String.ofList tag.toList) ([] ++ attributes)], .text []) :=
    reads_attributes hplain.2
  rw [List.nil_append, String.ofList_toList] at hend
  rw [Token.chars_opening, List.append_assoc]
  exact .append (.cons rfl (reads_tag hplain.1)) (reads_afterName hend)

theorem reads_closing {tag : String} (hplain : (Token.closing tag).Plain) :
    Reads (ts, .text run) (Token.closing tag).chars (ts ++ flush run ++ [.closing tag], .text []) := by
  refine .append (.cons rfl (.cons rfl (reads_endTag hplain))) (.one ?_)
  rw [step_endTag, if_pos rfl, List.nil_append, String.ofList_toList]

theorem reads_label {label : String} (hplain : (Token.comment label).Plain) :
    Reads (ts, .text run) (Token.comment label).chars (ts ++ flush run ++ [.comment label], .text []) := by
  have hclosing : '>' ∉ label.toList ++ ['-', '-'] := by
    rw [List.mem_append, not_or]
    exact ⟨fun hmem => nameChar_ne (hplain _ hmem) rfl rfl, by decide⟩
  have hchars : (Token.comment label).chars = "<!--".toList ++ ((label.toList ++ ['-', '-']) ++ ['>']) := by
    rw [Token.chars_comment, List.append_assoc, List.append_assoc]
    rfl
  have hopen : Reads (ts, .text run) "<!--".toList (ts ++ flush run, .comment []) :=
    .cons rfl (.cons rfl (.cons rfl (.one rfl)))
  rw [hchars]
  refine hopen.append (.append (reads_comment hclosing) (.one ?_))
  rw [step_comment, if_pos ⟨rfl, List.suffix_append _ _⟩, List.nil_append, List.length_append, List.length_cons,
    List.length_cons, List.length_nil, Nat.add_sub_cancel, List.take_left, String.ofList_toList]

end Reading

/-- A token put before others; a text runs into a text that follows, and no text is no token. -/
def Token.before : Token → List Token → List Token
  | .text value, .text value' :: ts => .text (value ++ value') :: ts
  | .text value, ts => if value = "" then ts else .text value :: ts
  | t, ts => t :: ts

/-- Tokens with every run of texts made one text. -/
def joined (ts : List Token) : List Token := ts.foldr Token.before []

section Joining

variable {t : Token} {ts ts' : List Token} {value value' : String}

theorem before_text_cons (value value' : String) (ts : List Token) :
    Token.before (.text value) (.text value' :: ts) = .text (value ++ value') :: ts := rfl

theorem before_text_of_ne (hts : ∀ value' ts', ts ≠ .text value' :: ts') :
    Token.before (.text value) ts = if value = "" then ts else .text value :: ts := by
  cases ts with
  | nil => rfl
  | cons t ts =>
      cases t with
      | text value' => exact absurd rfl (hts value' ts)
      | _ => rfl

/-- Where no text stands, a tag or a comment is put as it is. -/
theorem before_of_ne (ht : ∀ value, t ≠ .text value) (ts : List Token) : t.before ts = t :: ts := by
  cases t with
  | text value => exact absurd rfl (ht value)
  | _ => rfl

/-- Two texts one after the other are one text. -/
theorem before_text (value value' : String) (ts : List Token) :
    Token.before (.text value) (Token.before (.text value') ts) = Token.before (.text (value ++ value')) ts := by
  by_cases hts : ∃ w rest, ts = .text w :: rest
  · obtain ⟨w, rest, rfl⟩ := hts
    rw [before_text_cons, before_text_cons, before_text_cons, String.append_assoc]
  · have hne : ∀ w rest, ts ≠ .text w :: rest := fun w rest heq => hts ⟨w, rest, heq⟩
    rw [before_text_of_ne hne, before_text_of_ne hne]
    by_cases hvalue : value' = ""
    · rw [if_pos hvalue, before_text_of_ne hne, hvalue, String.append_empty]
    · rw [if_neg hvalue, before_text_cons, if_neg fun heq => hvalue (String.append_eq_empty_iff.mp heq).2]

theorem before_empty (ts : List Token) : Token.before (.text "") ts = ts := by
  by_cases hts : ∃ w rest, ts = .text w :: rest
  · obtain ⟨w, rest, rfl⟩ := hts
    rw [before_text_cons, String.empty_append]
  · rw [before_text_of_ne fun w rest heq => hts ⟨w, rest, heq⟩, if_pos rfl]

/-- A run that is read stands for the text that it is escaped from. -/
theorem flush_escaped (value : String) : flush (escaped value.toList) = Token.before (.text value) [] := by
  rw [flush, before_text_of_ne (by simp), decode_escaped, String.ofList_toList]
  by_cases hempty : value = ""
  · rw [if_pos hempty, if_pos (by rw [hempty]; rfl)]
  · rw [if_neg hempty, if_neg fun hnil => hempty (String.toList_eq_nil_iff.mp (escaped_eq_nil.mp hnil))]

/-- A text ends where a tag or a comment stands. -/
theorem flush_append (value : String) (ht : ∀ value, t ≠ .text value) (ts : List Token) :
    flush (escaped value.toList) ++ t :: ts = Token.before (.text value) (t.before ts) := by
  rw [before_of_ne ht, flush_escaped, before_text_of_ne (by simp), before_text_of_ne (by simp [ht])]
  by_cases hempty : value = ""
  · rw [if_pos hempty, if_pos hempty, List.nil_append]
  · rw [if_neg hempty, if_neg hempty, List.singleton_append]

/-- What is written of tokens is read back, with every run of texts as one text. -/
theorem tokensFrom_chars (hplain : ∀ t ∈ ts, t.Plain) (out : List Token) (value : String) :
    tokensFrom (out, .text (escaped value.toList)) (ts.flatMap Token.chars) =
      some (out ++ Token.before (.text value) (joined ts)) := by
  have hread : ∀ {state state' cs cs'}, Reads state cs state' →
      tokensFrom state (cs ++ cs') = tokensFrom state' cs' := by
    intro state state' cs cs' h
    rw [tokensFrom, List.foldlM_append, h]
    rfl
  induction ts generalizing out value with
  | nil =>
      rw [joined, List.foldr_nil, ← flush_escaped]
      rfl
  | cons t ts ih =>
      have hrest : ∀ t' ∈ ts, t'.Plain := fun t' ht' => hplain t' (List.mem_cons_of_mem t ht')
      have hnext : (∀ value, t ≠ .text value) →
          Reads (out, .text (escaped value.toList)) t.chars (out ++ flush (escaped value.toList) ++ [t], .text []) →
          tokensFrom (out, .text (escaped value.toList)) ((t :: ts).flatMap Token.chars) =
            some (out ++ Token.before (.text value) (joined (t :: ts))) := by
        intro ht hreads
        calc tokensFrom (out, .text (escaped value.toList)) ((t :: ts).flatMap Token.chars)
            = tokensFrom (out ++ flush (escaped value.toList) ++ [t], .text (escaped "".toList))
                (ts.flatMap Token.chars) := hread hreads
          _ = some (out ++ flush (escaped value.toList) ++ [t] ++ joined ts) := by rw [ih hrest, before_empty]
          _ = some (out ++ (flush (escaped value.toList) ++ t :: joined ts)) := by simp only [List.append_assoc,
              List.singleton_append]
          _ = some (out ++ Token.before (.text value) (joined (t :: ts))) := by rw [flush_append value ht]; rfl
      cases t with
      | text value' =>
          have hopen : '<' ∉ escaped value'.toList := not_mem_escaped (.inl rfl) _
          rw [List.flatMap_cons, Token.chars_text, hread (reads_text hopen), ← escaped_append, ← String.toList_append,
            ih hrest, joined, joined, List.foldr_cons, before_text]
      | opening tag attributes => exact hnext (by simp) (reads_opening (hplain _ List.mem_cons_self))
      | closing tag => exact hnext (by simp) (reads_closing (hplain _ List.mem_cons_self))
      | comment label => exact hnext (by simp) (reads_label (hplain _ List.mem_cons_self))

theorem tokens_chars (hplain : ∀ t ∈ ts, t.Plain) :
    tokens (String.ofList (ts.flatMap Token.chars)) = some (joined ts) := by
  have hread := tokensFrom_chars hplain [] ""
  rwa [List.nil_append, before_empty, ← String.toList_ofList (l := ts.flatMap Token.chars)] at hread

end Joining

end Parlance.Markup
