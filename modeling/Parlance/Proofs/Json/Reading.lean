import Parlance.Json.Decode
import Parlance.Json.Value
import Parlance.Proofs.Json.Numerals
import Mathlib.Tactic.IntervalCases

/-! Reading what has been written. A value may be laid out in several ways, with blanks between its parts; every layout
of it is read as the same draft, and both written forms are layouts. -/

namespace Parlance.Json

section Texts

variable {fuel : Nat} {acc rest : List Char}

theorem length_le_utf8 (cs : List Char) (n : Nat) : n + cs.length ≤ cs.foldl (fun n c => n + c.utf8Size) n := by
  induction cs generalizing n with
  | nil => simp
  | cons c cs ih =>
      have hpos := c.utf8Size_pos
      have hrest := ih (n + c.utf8Size)
      rw [List.foldl_cons, List.length_cons]
      omega

theorem hexValue_digitChar {d : Nat} (hd : d < 16) : hexValue? (Nat.digitChar d) = some d := by
  interval_cases d <;> rfl

/-- An escape by two digits is read as its code point. -/
theorem readCodePoint_byte {n : Nat} (hn : n < 256) (rest : List Char) :
    readCodePoint ('0' :: '0' :: hexByte n ++ rest) = .ok (.ok (Char.ofNat n), rest) := by
  have hlength : ¬ (('0' :: '0' :: hexByte n ++ rest).foldl (fun n c => n + c.utf8Size) 0) < 4 := by
    have hle := length_le_utf8 ('0' :: '0' :: hexByte n ++ rest) 0
    simp only [hexByte, List.cons_append, List.nil_append, List.length_cons] at hle ⊢
    omega
  have hhex : readHex ('0' :: '0' :: hexByte n ++ rest) = .ok (n, rest) := by
    unfold readHex
    rw [if_neg hlength]
    have hvalue : ((0 * 16 + 0) * 16 + n / 16) * 16 + n % 16 = n := by omega
    simp only [hexByte, List.cons_append, List.nil_append, hexValue_digitChar (Nat.mod_lt n (by decide : 0 < 16)),
      hexValue_digitChar (show n / 16 < 16 by omega), show hexValue? '0' = some 0 from rfl, hvalue]
  have hlow : ¬ (0xDC00 ≤ n ∧ n ≤ 0xDFFF) := by omega
  have hplain : n < 0xD800 ∨ 0xDBFF < n := by omega
  rw [readCodePoint, hhex]
  change (if 0xDC00 ≤ n ∧ n ≤ 0xDFFF then _ else _) = _
  rw [if_neg hlow, if_pos hplain]
  rfl

/-- One written character is read as that character. -/
theorem readText_char (c : Char) (cs : List Char) :
    readText (fuel + 1) none acc (escapedChar c ++ cs) = readText fuel none (c :: acc) cs := by
  unfold escapedChar
  split
  next h => subst h; rfl
  split
  next h => subst h; rfl
  split
  next h => subst h; rfl
  split
  next h => subst h; rfl
  split
  next h => subst h; rfl
  split
  next h => subst h; rfl
  split
  next h => subst h; rfl
  next hquote hslash _ _ _ _ _ =>
  split
  next hcontrol =>
    have hread := readCodePoint_byte (show c.toNat < 256 by omega) cs
    rw [Char.ofNat_toNat] at hread
    have hcs : ['\\', 'u', '0', '0'] ++ hexByte c.toNat ++ cs = '\\' :: 'u' :: ('0' :: '0' :: hexByte c.toNat ++ cs) := rfl
    rw [hcs, readText, hread]
  next hplain =>
    rw [List.singleton_append, readText, if_neg hplain]
    · exact fun h => absurd h hquote
    · exact fun h => absurd h hslash
    · exact fun _ h => absurd h hslash
    · exact fun _ _ h => absurd h hslash

/-- A written text is read up to its closing quote. -/
theorem readText_eq (cs : List Char) (hfuel : cs.length < fuel) :
    readText fuel none acc (cs.flatMap escapedChar ++ '"' :: rest) =
      (.read (String.ofList (acc.reverse ++ cs)), some rest) := by
  induction cs generalizing fuel acc with
  | nil =>
      obtain ⟨fuel, rfl⟩ := Nat.exists_eq_succ_of_ne_zero (Nat.ne_of_gt hfuel)
      simp [readText]
  | cons c cs ih =>
      obtain ⟨fuel, rfl⟩ := Nat.exists_eq_succ_of_ne_zero (Nat.ne_of_gt (Nat.zero_lt_of_lt hfuel))
      rw [List.flatMap_cons, List.append_assoc, readText_char, ih (Nat.lt_of_succ_lt_succ hfuel)]
      simp

/-- A written text is at least as long as what it says. -/
theorem length_le_escaped (cs : List Char) : cs.length ≤ (cs.flatMap escapedChar).length := by
  induction cs with
  | nil => simp
  | cons c cs ih =>
      have hpos : 1 ≤ (escapedChar c).length := by
        unfold escapedChar
        repeat' split
        all_goals simp
      rw [List.flatMap_cons, List.length_append, List.length_cons]
      omega

/-- The characters of a written text behind its opening quote. -/
def quotedTail (s : String) : List Char := s.toList.flatMap escapedChar ++ ['"']

theorem toList_writeText (s : String) : (writeText s).toList = '"' :: quotedTail s := by
  simp [writeText, quotedTail]

/-- A written text is read with the fuel that its reader takes. -/
theorem readText_tail (s : String) (rest : List Char) :
    readText ((quotedTail s ++ rest).length + 1) none [] (quotedTail s ++ rest) = (.read s, some rest) := by
  have hle := length_le_escaped s.toList
  have hfuel : s.toList.length < (quotedTail s ++ rest).length + 1 := by
    rw [quotedTail, List.length_append, List.length_append]
    omega
  have hread : readText _ none [] _ = (.read (String.ofList ([].reverse ++ s.toList)), some rest) :=
    readText_eq s.toList hfuel
  rw [quotedTail, List.append_assoc, List.singleton_append] at hread ⊢
  simpa using hread

end Texts

/-- Characters that may stand between the parts of a document. -/
def Blank (cs : List Char) : Prop := ∀ c ∈ cs, isSpace c = true

section Blanks

variable {bs cs rest : List Char} {c : Char}

theorem skipSpace_blank (hbs : Blank bs) : skipSpace (bs ++ cs) = skipSpace cs := by
  rw [skipSpace, List.dropWhile_append_of_pos hbs, skipSpace]

theorem skipSpace_cons (hc : isSpace c = false) : skipSpace (c :: cs) = c :: cs := by
  rw [skipSpace, List.dropWhile_cons_of_neg (by simp [hc])]

theorem skipSpace_blank_cons (hbs : Blank bs) (hc : isSpace c = false) : skipSpace (bs ++ c :: cs) = c :: cs := by
  rw [skipSpace_blank hbs, skipSpace_cons hc]

theorem follows_cons (hdigit : c.isDigit = false) (he : c ≠ 'e') (hE : c ≠ 'E') : Follows (c :: cs) := by
  rintro _ ⟨⟩
  exact ⟨hdigit, he, hE⟩

/-- Neither blanks nor what ends a value belong to a numeral. -/
theorem follows_blank (hbs : Blank bs) (hcs : Follows cs) : Follows (bs ++ cs) := by
  cases bs with
  | nil => exact hcs
  | cons b bs =>
      have hb : isSpace b = true := hbs b List.mem_cons_self
      refine follows_cons ?_ ?_ ?_
      · by_contra hdigit
        have hspaces : (b = ' ' ∨ b = '\n') ∨ b = '\t' ∨ b = '\r' := by simpa [isSpace, or_assoc] using hb
        rcases hspaces with (rfl | rfl) | rfl | rfl <;> exact hdigit rfl
      · rintro rfl
        exact absurd hb (by decide)
      · rintro rfl
        exact absurd hb (by decide)

/-- Blanks in front of a value are passed over. -/
theorem readValue_blank (hbs : Blank bs) (fuel : Nat) : readValue fuel (bs ++ cs) = readValue fuel cs := by
  cases fuel with
  | zero => rfl
  | succ fuel => rw [readValue, readValue, skipSpace_blank hbs]

end Blanks

section Steps

variable {fuel : Nat} {cs rest rest' rest'' next last : List Char} {c : Char} {item value : Draft} {items : List Draft}
  {key : Literal} {entries : List (Literal × Draft)}

theorem readItems_last (hitem : readValue fuel cs = (item, some rest)) (hrest : skipSpace rest = ']' :: last) :
    readItems (fuel + 1) cs = (([item], .closed), some last) := by
  simp only [readItems, hitem, hrest]

theorem readItems_more (hitem : readValue fuel cs = (item, some rest)) (hrest : skipSpace rest = ',' :: rest')
    (hnext : skipSpace rest' = c :: next) (hc : c ≠ ']')
    (hitems : readItems fuel (c :: next) = ((items, .closed), some last)) :
    readItems (fuel + 1) cs = ((item :: items, .closed), some last) := by
  simp only [readItems, hitem, hrest, hnext]
  split
  next heq => exact absurd (List.cons.inj heq).1 hc
  next heq => cases heq
  next => rw [hitems]

theorem readEntries_last (hkey : readText (cs.length + 1) none [] cs = (key, some rest))
    (hcolon : skipSpace rest = ':' :: rest') (hvalue : readValue fuel rest' = (value, some next))
    (hnext : skipSpace next = '\x7d' :: last) :
    readEntries (fuel + 1) ('"' :: cs) = (([(key, value)], .closed), some last) := by
  simp only [readEntries, hkey, hcolon, hvalue, hnext]

theorem readEntries_more {next' : List Char} (hkey : readText (cs.length + 1) none [] cs = (key, some rest))
    (hcolon : skipSpace rest = ':' :: rest') (hvalue : readValue fuel rest' = (value, some next))
    (hnext : skipSpace next = ',' :: next') (hquote : skipSpace next' = '"' :: rest'')
    (hentries : readEntries fuel ('"' :: rest'') = ((entries, .closed), some last)) :
    readEntries (fuel + 1) ('"' :: cs) = (((key, value) :: entries, .closed), some last) := by
  simp only [readEntries, hkey, hcolon, hvalue, hnext, hquote]
  split
  next heq => cases heq
  next heq => cases heq
  next => rw [hentries]

theorem readValue_list (hrest : skipSpace rest = c :: next) (hc : c ≠ ']')
    (hitems : readItems fuel (c :: next) = ((items, .closed), some last)) :
    readValue (fuel + 1) ('[' :: rest) = (.list items .closed, some last) := by
  have hopen : skipSpace ('[' :: rest) = '[' :: rest := skipSpace_cons rfl
  simp only [readValue, hopen, hrest]
  split
  next heq => exact absurd (List.cons.inj heq).1 hc
  next heq => cases heq
  next => rw [hitems]

theorem readValue_object (hrest : skipSpace rest = '"' :: next)
    (hentries : readEntries fuel ('"' :: next) = ((entries, .closed), some last)) :
    readValue (fuel + 1) ('\x7b' :: rest) = (.object entries .closed, some last) := by
  have hopen : skipSpace ('\x7b' :: rest) = '\x7b' :: rest := skipSpace_cons rfl
  simp only [readValue, hopen, hrest, hentries]

end Steps

end Parlance.Json
