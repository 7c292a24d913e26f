import Parlance.Proofs.Json.Reading

/-! Layouts of a document. Every layout of a value is read as the same draft, and both written forms are layouts. -/

namespace Parlance.Json

mutual

/-- What is read where a value has been written. -/
def Value.draft : Value → Draft
  | .null => .null
  | .bool b => .bool b
  | .number n => .number (.ok (.real n))
  | .text s => .text (.read s)
  | .list items => .list (draftItems items) .closed
  | .object entries => .object (draftEntries entries) .closed

def draftItems : List Value → List Draft
  | [] => []
  | v :: vs => v.draft :: draftItems vs

def draftEntries : List (String × Value) → List (Literal × Draft)
  | [] => []
  | (k, v) :: vs => (.read k, v.draft) :: draftEntries vs

end

mutual

/-- Whether every number in a value comes back from its numeral. -/
def Value.Legible : Value → Prop
  | .number n => ∃ k, n.IsWholeOf k ∧ Steady k
  | .list items => LegibleItems items
  | .object entries => LegibleEntries entries
  | _ => True

def LegibleItems : List Value → Prop
  | [] => True
  | v :: vs => v.Legible ∧ LegibleItems vs

def LegibleEntries : List (String × Value) → Prop
  | [] => True
  | (_, v) :: vs => v.Legible ∧ LegibleEntries vs

end

/-- Where the blanks of a document stand: in front of a part that is inside of so many others and of the bracket that
closes them, and behind a colon. -/
structure Layout where
  lead : Nat → List Char
  gap : List Char
  blank_lead : ∀ level, Blank (lead level)
  blank_gap : Blank gap

namespace Layout

/-- The layout without blanks. -/
def compact : Layout := ⟨fun _ => [], [], fun _ => nofun, nofun⟩

theorem blank_replicate (n : Nat) : Blank (List.replicate n ' ') := fun _ hc => by
  rw [List.eq_of_mem_replicate hc]
  rfl

/-- The layout with every part on a line of its own. -/
def pretty : Layout where
  lead level := '\n' :: List.replicate (2 * level) ' '
  gap := [' ']
  blank_lead _ := List.forall_mem_cons.mpr ⟨rfl, blank_replicate _⟩
  blank_gap := blank_replicate 1

variable (l : Layout)

/-- The parts behind the first one. -/
def more (level : Nat) (parts : List (List Char)) : List Char := parts.flatMap fun p => ',' :: (l.lead level ++ p)

/-- The parts of a list or object between its brackets. -/
def frame (level : Nat) (opening closing : Char) : List (List Char) → List Char
  | [] => [opening, closing]
  | p :: ps => opening :: (l.lead (level + 1) ++ p ++ l.more (level + 1) ps ++ l.lead level ++ [closing])

/-- An entry of an object. -/
def entry (key : String) (value : List Char) : List Char := '"' :: quotedTail key ++ ':' :: l.gap ++ value

mutual

/-- The characters of a value that stands inside `level` others. -/
def write (level : Nat) : Value → List Char
  | .null => ['n', 'u', 'l', 'l']
  | .bool true => ['t', 'r', 'u', 'e']
  | .bool false => ['f', 'a', 'l', 's', 'e']
  | .number n => n.toDocument.toList
  | .text s => '"' :: quotedTail s
  | .list items => l.frame level '[' ']' (writeItems (level + 1) items)
  | .object entries => l.frame level '\x7b' '\x7d' (writeEntries (level + 1) entries)

def writeItems (level : Nat) : List Value → List (List Char)
  | [] => []
  | v :: vs => write level v :: writeItems level vs

def writeEntries (level : Nat) : List (String × Value) → List (List Char)
  | [] => []
  | (k, v) :: vs => l.entry k (write level v) :: writeEntries level vs

end

/-- No value starts with a blank or with the end of a list. -/
theorem write_head (level : Nat) {v : Value} (hv : v.Legible) :
    ∃ c cs, l.write level v = c :: cs ∧ isSpace c = false ∧ c ≠ ']' := by
  cases v with
  | null => exact ⟨_, _, rfl, rfl, by decide⟩
  | bool b => cases b <;> exact ⟨_, _, rfl, rfl, by decide⟩
  | text s => exact ⟨_, _, rfl, rfl, by decide⟩
  | list items =>
      rw [write]
      cases l.writeItems (level + 1) items <;> exact ⟨_, _, rfl, rfl, by decide⟩
  | object entries =>
      rw [write]
      cases l.writeEntries (level + 1) entries <;> exact ⟨_, _, rfl, rfl, by decide⟩
  | number n =>
      obtain ⟨k, hwhole, -⟩ := hv
      obtain ⟨c, cs, hcs, rfl | hc⟩ := toDocument_head hwhole
      · exact ⟨_, cs, hcs, rfl, by decide⟩
      · refine ⟨c, cs, hcs, isSpace_digit hc, ?_⟩
        rintro rfl
        exact absurd hc (by decide)

theorem blank_follows (level : Nat) {c : Char} {cs : List Char} (hc : Follows (c :: cs)) :
    Follows (l.lead level ++ c :: cs) := follows_blank (l.blank_lead level) hc

theorem more_cons (level : Nat) (p : List Char) (ps : List (List Char)) (rest : List Char) :
    l.more level (p :: ps) ++ rest = ',' :: (l.lead level ++ (p ++ (l.more level ps ++ rest))) := by
  simp [more]

theorem length_entry (k : String) (value : List Char) :
    (l.entry k value).length = 2 + (quotedTail k).length + l.gap.length + value.length := by
  simp only [entry, List.length_cons, List.length_append]
  omega

theorem entry_append (k : String) (value rest : List Char) :
    l.entry k value ++ rest = '"' :: (quotedTail k ++ ':' :: (l.gap ++ (value ++ rest))) := by
  simp [entry]

theorem readValue_gap (fuel : Nat) (cs : List Char) : readValue fuel (l.gap ++ cs) = readValue fuel cs :=
  readValue_blank l.blank_gap fuel

/-- A word is read as it stands. -/
theorem readWord_append (value : Draft) (word rest : List Char) :
    readWord value word (word ++ rest) = (value, some rest) := by
  induction word with
  | nil => rfl
  | cons c cs ih => rw [List.cons_append, readWord, if_pos rfl, ih]

mutual

/-- A value is read as its draft, however it is laid out. -/
theorem readValue_write :
    ∀ {v : Value} (level : Nat), v.Legible → ∀ (fuel : Nat) (rest : List Char), (l.write level v).length ≤ fuel →
      Follows rest → readValue fuel (l.write level v ++ rest) = (v.draft, some rest)
  | .null, level, _, fuel + 1, rest, _, _ => readWord_append .null ['u', 'l', 'l'] rest
  | .bool true, level, _, fuel + 1, rest, _, _ => readWord_append (.bool true) ['r', 'u', 'e'] rest
  | .bool false, level, _, fuel + 1, rest, _, _ => readWord_append (.bool false) ['a', 'l', 's', 'e'] rest
  | .number n, level, ⟨k, hwhole, hsteady⟩, fuel, rest, hfuel, hrest => by
      obtain ⟨c, cs, hcs, -⟩ := toDocument_head hwhole
      rw [write, hcs, List.length_cons] at hfuel
      obtain ⟨fuel, rfl⟩ := Nat.exists_eq_add_of_lt (Nat.zero_lt_of_lt hfuel)
      exact readValue_whole hwhole hsteady hrest _
  | .text s, level, _, fuel + 1, rest, _, _ => by
      rw [write, List.cons_append, readValue, skipSpace_cons rfl]
      simp only [readText_tail, Value.draft]
  | .list [], level, _, fuel + 1, rest, _, _ => rfl
  | .list (v :: vs), level, ⟨hv, hvs⟩, fuel + 1, rest, hfuel, hrest => by
      obtain ⟨c, cs, hcs, hspace, hend⟩ := l.write_head (level + 1) hv
      have hlength : (l.write (level + 1) v).length +
          (l.more (level + 1) (l.writeItems (level + 1) vs)).length < fuel := by
        simp only [write, writeItems, frame, List.length_cons, List.length_append, List.length_nil] at hfuel
        omega
      have hitems := readItems_write (level + 1) level hv hvs fuel rest hlength
      rw [hcs, List.cons_append] at hitems
      rw [write, writeItems, frame, hcs]
      simp only [List.cons_append, List.append_assoc, List.nil_append]
      exact readValue_list (skipSpace_blank_cons (l.blank_lead _) hspace) hend hitems
  | .object [], level, _, fuel + 1, rest, _, _ => rfl
  | .object ((k, v) :: vs), level, ⟨hv, hvs⟩, fuel + 1, rest, hfuel, hrest => by
      have hlength : (l.entry k (l.write (level + 1) v)).length +
          (l.more (level + 1) (l.writeEntries (level + 1) vs)).length < fuel := by
        simp only [write, writeEntries, frame, List.length_cons, List.length_append, List.length_nil] at hfuel
        omega
      have hentries := readEntries_write k (level + 1) level hv hvs fuel rest hlength
      rw [entry, List.cons_append, List.cons_append] at hentries
      rw [write, writeEntries, frame, entry]
      simp only [List.cons_append, List.append_assoc, List.nil_append] at hentries ⊢
      exact readValue_object (skipSpace_blank_cons (l.blank_lead _) rfl) hentries
termination_by _ _ _ fuel => fuel

theorem readItems_write :
    ∀ {v : Value} {vs : List Value} (level outer : Nat), v.Legible → LegibleItems vs → ∀ (fuel : Nat) (rest : List Char),
      (l.write level v).length + (l.more level (l.writeItems level vs)).length < fuel →
      readItems fuel (l.write level v ++ (l.more level (l.writeItems level vs) ++ (l.lead outer ++ ']' :: rest))) =
        ((draftItems (v :: vs), .closed), some rest)
  | v, [], level, outer, hv, _, fuel + 1, rest, hfuel => by
      have hend : Follows (']' :: rest) := follows_cons rfl (by decide) (by decide)
      have hitem := readValue_write level hv fuel (l.lead outer ++ ']' :: rest) (by omega)
        (l.blank_follows outer hend)
      exact readItems_last hitem (skipSpace_blank_cons (l.blank_lead outer) rfl)
  | v, v' :: vs, level, outer, hv, ⟨hv', hvs⟩, fuel + 1, rest, hfuel => by
      obtain ⟨c, cs, hcs, hspace, hend⟩ := l.write_head level hv'
      rw [writeItems, more_cons]
      have hlength : (l.write level v).length + 1 + (l.write level v').length +
          (l.more level (l.writeItems level vs)).length ≤ fuel := by
        have hmore := congrArg List.length (l.more_cons level (l.write level v') (l.writeItems level vs) [])
        simp only [List.append_nil, List.length_append, List.length_cons] at hmore
        rw [writeItems] at hfuel
        omega
      have hcomma : Follows (',' :: (l.lead level ++ (l.write level v' ++ (l.more level (l.writeItems level vs) ++
          (l.lead outer ++ ']' :: rest))))) := follows_cons rfl (by decide) (by decide)
      have hitem := readValue_write level hv fuel _ (by omega) hcomma
      have hitems := readItems_write level outer hv' hvs fuel rest (by omega)
      rw [hcs, List.cons_append] at hitems hitem ⊢
      exact readItems_more hitem (skipSpace_cons rfl) (skipSpace_blank_cons (l.blank_lead level) hspace) hend hitems
termination_by _ _ _ _ _ _ fuel => fuel

theorem readEntries_write (k : String) :
    ∀ {v : Value} {vs : List (String × Value)} (level outer : Nat), v.Legible → LegibleEntries vs →
      ∀ (fuel : Nat) (rest : List Char),
      (l.entry k (l.write level v)).length + (l.more level (l.writeEntries level vs)).length < fuel →
      readEntries fuel (l.entry k (l.write level v) ++
          (l.more level (l.writeEntries level vs) ++ (l.lead outer ++ '\x7d' :: rest))) =
        ((draftEntries ((k, v) :: vs), .closed), some rest)
  | v, [], level, outer, hv, _, fuel + 1, rest, hfuel => by
      have hend : Follows ('\x7d' :: rest) := follows_cons rfl (by decide) (by decide)
      have hlength : (l.write level v).length ≤ fuel := by
        rw [length_entry] at hfuel
        omega
      have hvalue := readValue_write level hv fuel _ hlength (l.blank_follows outer hend)
      rw [← l.readValue_gap] at hvalue
      rw [l.entry_append]
      exact readEntries_last (readText_tail k _) (skipSpace_cons rfl) hvalue
        (skipSpace_blank_cons (l.blank_lead outer) rfl)
  | v, (k', v') :: vs, level, outer, hv, ⟨hv', hvs⟩, fuel + 1, rest, hfuel => by
      rw [writeEntries, more_cons]
      have hlength : (l.write level v).length + 1 + (l.entry k' (l.write level v')).length +
          (l.more level (l.writeEntries level vs)).length ≤ fuel := by
        have hmore := congrArg List.length (l.more_cons level (l.entry k' (l.write level v')) (l.writeEntries level vs) [])
        simp only [List.append_nil, List.length_append, List.length_cons] at hmore
        rw [writeEntries, length_entry] at hfuel
        omega
      have hcomma : Follows (',' :: (l.lead level ++ (l.entry k' (l.write level v') ++
          (l.more level (l.writeEntries level vs) ++ (l.lead outer ++ '\x7d' :: rest))))) :=
        follows_cons rfl (by decide) (by decide)
      have hvalue := readValue_write level hv fuel _ (by omega) hcomma
      have hentries := readEntries_write k' level outer hv' hvs fuel rest (by omega)
      rw [← l.readValue_gap] at hvalue
      rw [l.entry_append]
      rw [l.entry_append] at hvalue hentries ⊢
      exact readEntries_more (readText_tail k _) (skipSpace_cons rfl) hvalue (skipSpace_cons rfl)
        (skipSpace_blank_cons (l.blank_lead level) rfl) hentries
termination_by _ _ _ _ _ _ fuel => fuel

end

end Layout

section WrittenForms

theorem toList_intercalate_cons (separator p : String) (ps : List String) :
    (separator.intercalate (p :: ps)).toList = p.toList ++ ps.flatMap fun q => separator.toList ++ q.toList := by
  induction ps generalizing p with
  | nil => simp
  | cons q ps ih => rw [String.intercalate_cons_cons, String.toList_append, String.toList_append, ih]; simp

theorem toList_compact_frame (level : Nat) (opening closing : Char) (parts : List String) :
    (String.singleton opening ++ ",".intercalate parts ++ String.singleton closing).toList =
      Layout.compact.frame level opening closing (parts.map String.toList) := by
  cases parts with
  | nil => simp [Layout.frame]
  | cons p ps =>
      rw [String.toList_append, String.toList_append, toList_intercalate_cons]
      simp [Layout.frame, Layout.more, Layout.compact, List.flatMap_map]

theorem toList_block (level : Nat) (opening closing : Char) (parts : List String) :
    (block level (String.singleton opening) (String.singleton closing) parts).toList =
      Layout.pretty.frame level opening closing (parts.map String.toList) := by
  cases parts with
  | nil => simp [block, Layout.frame]
  | cons p ps =>
      simp only [block, List.map_cons, String.toList_append, toList_intercalate_cons]
      simp [Layout.frame, Layout.more, Layout.pretty, indentation, List.flatMap_map]

mutual

/-- The compact form is a layout. -/
theorem toList_compact (level : Nat) : ∀ v : Value, v.compact.toList = Layout.compact.write level v
  | .null | .bool true | .bool false | .number _ => rfl
  | .text s => toList_writeText s
  | .list items => by
      rw [Layout.write, ← toList_compactItems (level + 1) items]
      exact toList_compact_frame level '[' ']' (compactItems items)
  | .object entries => by
      rw [Layout.write, ← toList_compactEntries (level + 1) entries]
      exact toList_compact_frame level '\x7b' '\x7d' (compactEntries entries)

theorem toList_compactItems (level : Nat) :
    ∀ vs : List Value, (compactItems vs).map String.toList = Layout.compact.writeItems level vs
  | [] => rfl
  | v :: vs => by
      rw [compactItems, List.map_cons, toList_compact level v, toList_compactItems level vs, Layout.writeItems]

theorem toList_compactEntries (level : Nat) :
    ∀ vs : List (String × Value), (compactEntries vs).map String.toList = Layout.compact.writeEntries level vs
  | [] => rfl
  | (k, v) :: vs => by
      rw [compactEntries, List.map_cons, toList_compactEntries level vs, Layout.writeEntries, String.toList_append,
        String.toList_append, toList_writeText, toList_compact level v]
      simp [Layout.entry, Layout.compact]

end

mutual

/-- The indented form is a layout. -/
theorem toList_pretty : ∀ (level : Nat) (v : Value), (v.pretty level).toList = Layout.pretty.write level v
  | _, .null | _, .bool true | _, .bool false | _, .number _ => by simp [Value.pretty, Layout.write]
  | _, .text s => toList_writeText s
  | level, .list items => by
      rw [Layout.write, ← toList_prettyItems (level + 1) items]
      exact toList_block level '[' ']' (prettyItems (level + 1) items)
  | level, .object entries => by
      rw [Layout.write, ← toList_prettyEntries (level + 1) entries]
      exact toList_block level '\x7b' '\x7d' (prettyEntries (level + 1) entries)

theorem toList_prettyItems :
    ∀ (level : Nat) (vs : List Value), (prettyItems level vs).map String.toList = Layout.pretty.writeItems level vs
  | _, [] => rfl
  | level, v :: vs => by
      rw [prettyItems, List.map_cons, toList_pretty level v, toList_prettyItems level vs, Layout.writeItems]

theorem toList_prettyEntries :
    ∀ (level : Nat) (vs : List (String × Value)),
      (prettyEntries level vs).map String.toList = Layout.pretty.writeEntries level vs
  | _, [] => rfl
  | level, (k, v) :: vs => by
      rw [prettyEntries, List.map_cons, toList_prettyEntries level vs, Layout.writeEntries, String.toList_append,
        String.toList_append, toList_writeText, toList_pretty level v]
      simp [Layout.entry, Layout.pretty]

end

/-- A text in any layout of a value is read as the draft of that value, with nothing behind it. -/
theorem Draft.ofText_write {v : Value} (hv : v.Legible) {l : Layout} {text : String}
    (htext : text.toList = l.write 0 v) : Draft.ofText text = (v.draft, false) := by
  have hread := l.readValue_write 0 hv (2 * text.toList.length + 2) [] (by rw [htext]; omega) nofun
  rw [List.append_nil, ← htext] at hread
  simp [Draft.ofText, hread, skipSpace]

/-- Both written forms are read as the draft of the value. -/
theorem Draft.ofText_written {v : Value} (hv : v.Legible) {text : String} (htext : text ∈ [v.compact, v.pretty 0]) :
    Draft.ofText text = (v.draft, false) := by
  obtain rfl | rfl : text = v.compact ∨ text = v.pretty 0 := by simpa using htext
  · exact ofText_write hv (toList_compact 0 v)
  · exact ofText_write hv (toList_pretty 0 v)

end WrittenForms

end Parlance.Json
