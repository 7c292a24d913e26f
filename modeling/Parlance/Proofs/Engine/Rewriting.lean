import Parlance.Proofs.Engine.DiffStep
import Parlance.Proofs.Engine.Rows

/-! What becomes of the entries of a node when a word is carried out again or its slot is removed. A rewrite
lays the entries of the new word over those of the old one, and it touches nothing if the arguments are
unchanged; a removal erases what the word had put. -/

namespace Parlance

namespace Host

/-- Entries have been laid over others on a node. Those that stay have to have been there before. -/
structure Rewrites (n : NodeId) (old new : List (Place × Scalar)) (h h' : Host) : Prop where
  count : h'.count = h.count
  others : ∀ m, m ≠ n → h'.content m = h.content m
  kind : (h'.content n).kind = (h.content n).kind
  held : ∀ π, ((lastAt old π).isSome → (lastAt new π).isSome → (h.content n).held π = lastAt old π) →
    (h'.content n).held π = overlay (lastAt old π) (lastAt new π) ((h.content n).held π)
  childless : ∀ m, h.children m = [] → h'.children m = []

variable {n : NodeId} {old new : List (Place × Scalar)} {h h' : Host} {f : Place → Option Scalar}

theorem Touches.rewrites (htouches : Touches n f h h')
    (hf : ∀ π, f π = overlay (lastAt old π) (lastAt new π) ((h.content n).held π)) : Rewrites n old new h h' :=
  ⟨htouches.count, htouches.others, htouches.kind, fun π _ => (htouches.held π).trans (hf π), htouches.childless⟩

theorem Rewrites.roomy {k : Nat} (hrewrites : Rewrites n old new h h') (hroomy : h.Roomy k) : h'.Roomy k :=
    fun m hk hm => by
  refine hrewrites.childless m (hroomy m hk ?_)
  by_cases heq : m = n
  · rw [heq, ← hrewrites.kind, ← heq, hm]
  · rw [← hrewrites.others m heq, hm]

theorem Rewrites.none (hsame : ∀ π, lastAt new π = lastAt old π) : Rewrites n old new h h := by
  refine ⟨rfl, fun _ _ => rfl, rfl, fun π hagree => ?_, fun _ hm => hm⟩
  rw [hsame] at hagree ⊢
  cases hold : lastAt old π with
  | none => rfl
  | some value =>
      rw [hold] at hagree
      exact hagree rfl rfl

theorem lastAt_single (place π : Place) (value : Scalar) :
    lastAt [(place, value)] π = if π = place then some value else Option.none := by
  simp [lastAt]

/-- One entry over another that stands somewhere else. -/
theorem Rewrites.move {place place' : Place} {value value' : Scalar} {h₁ : Host}
    (herase : Touches n (fun π => if π = place then Option.none else (h.content n).held π) h h₁)
    (hwrite : Touches n (fun π => if π = place' then some value' else (h₁.content n).held π) h₁ h') :
    Rewrites n [(place, value)] [(place', value')] h h' := by
  refine (herase.trans hwrite).rewrites fun π => ?_
  rw [herase.held, lastAt_single, lastAt_single]
  by_cases hπ : π = place' <;> by_cases hπ' : π = place <;> simp [overlay, hπ, hπ']

theorem Rewrites.set {place : Place} {value value' : Scalar}
    (hwrite : Touches n (fun π => if π = place then some value' else (h.content n).held π) h h') :
    Rewrites n [(place, value)] [(place, value')] h h' := by
  refine hwrite.rewrites fun π => ?_
  rw [lastAt_single, lastAt_single]
  by_cases hπ : π = place <;> simp [overlay, hπ]

end Host

open Host

/-- Arguments that count as unchanged one by one are unchanged. -/
theorem Lexem.same_of_unchanged {lexem old : Lexem} (h : lexem.argsChanged old = false) (i : Nat) :
    (lexem.arg i).same (old.arg i) = true := by
  simp only [argsChanged, Bool.or_eq_false_iff, decide_eq_false_iff_not, ne_eq, not_not] at h
  obtain ⟨hlength, hzip⟩ := h
  unfold arg argAt
  generalize lexem.args = args, old.args = olds at hlength hzip
  induction args generalizing olds i with
  | nil =>
      cases olds with
      | nil => rfl
      | cons => simp at hlength
  | cons a args ih =>
      cases olds with
      | nil => simp at hlength
      | cons a' olds =>
          rw [List.zip_cons_cons, List.any_cons, Bool.or_eq_false_iff, Bool.not_eq_false'] at hzip
          cases i with
          | zero => exact hzip.1
          | succ i => exact ih i olds (by simpa using hlength) hzip.2

/-- An argument that counts as unchanged has the same text, as long as a list keeps its items. -/
theorem Arg.toText_of_same {a a' : Arg} (hitems : ∀ i items items', a = .list i items → a' = .list i items' → items = items')
    (hsame : a.same a' = true) : a.toText = a'.toText := by
  cases a <;> cases a' <;> simp only [Arg.same, decide_eq_true_eq, Bool.false_eq_true] at hsame <;> try rfl
  case bool => rw [hsame]
  case str => rw [hsame]
  case number n n' =>
    rw [Arg.toText, Arg.toText, ← Number.toText_canonical n, Number.canonical_of_equals hsame, Number.toText_canonical]
  case list i items i' items' =>
    subst hsame
    rw [hitems i items items' rfl rfl]

/-- Scalars that count as unchanged agree but for the sign of zero. -/
theorem Arg.canonical_of_same {a a' : Arg} (h : a.same a' = true) {value value' : Scalar}
    (hvalue : a.toScalar? = some value) (hvalue' : a'.toScalar? = some value') : value.canonical = value'.canonical := by
  refine Scalar.canonical_of_equals ?_
  cases a <;> cases hvalue <;> cases a' <;> cases hvalue' <;> exact h

theorem Lexem.stringArg_ok {lexem : Lexem} {i : Nat} {s : String} :
    lexem.stringArg i = .ok s ↔ lexem.arg i = .str s := by
  unfold stringArg invalid
  cases lexem.arg i <;> simp

theorem Lexem.scalarArg_ok {lexem : Lexem} {i : Nat} {s : Scalar} :
    lexem.scalarArg i = .ok s ↔ (lexem.arg i).toScalar? = some s := by
  unfold scalarArg invalid
  cases (lexem.arg i).toScalar? <;> simp

section Rewriting

variable {R : Arg → Arg → Prop} {lexem old : Lexem} {e : Engine} {n : NodeId} {f : Host → Host} {h : Host}

/-- A word with a key and a text. -/
theorem diffEntry_rewrites {put : String → String → Write} (place : String → Place) {ws : List Write}
    (hplace : ∀ k v, (put k v).place = place k) (hvalue : ∀ k v, (put k v).value = .str v)
    (htext : (lexem.arg 1).same (old.arg 1) = true → (lexem.arg 1).toText = (old.arg 1).toText)
    (hold : (old.stringArg 0).toOption.map (fun k => [put k (old.arg 1).toText]) = some ws)
    (hf : lexem.diffEntry old (fun k v h => h.write n (put k v)) (fun k h => h.erase n (place k)) = .ok f) :
    ∃ ws', (lexem.stringArg 0).toOption.map (fun k => [put k (lexem.arg 1).toText]) = some ws' ∧
      ∀ h, n.index < h.count → Rewrites n (ws.map Write.entry) (ws'.map Write.entry) h (f h) := by
  unfold Lexem.diffEntry at hf
  cases hkey : lexem.stringArg 0 with
  | error => rw [hkey] at hf; cases hf
  | ok key =>
  cases holdKey : old.stringArg 0 with
  | error => rw [hkey, holdKey] at hf; cases hf
  | ok oldKey =>
  rw [hkey, holdKey] at hf
  rw [holdKey] at hold
  cases hold
  refine ⟨_, rfl, fun h hn => ?_⟩
  change (if key ≠ oldKey then _ else _) = _ at hf
  rw [List.map_singleton, List.map_singleton, Write.entry, Write.entry, hplace, hplace, hvalue, hvalue]
  have hset : ∀ h : Host, n.index < h.count → Touches n (fun π => if π = place key then
      some (.str (lexem.arg 1).toText) else (h.content n).held π) h (h.write n (put key (lexem.arg 1).toText)) := by
    intro h hn
    have hwrite := write_touches hn (put key (lexem.arg 1).toText)
    rwa [hplace, hvalue] at hwrite
  split at hf
  · cases hf
    have herase := erase_touches hn (place oldKey)
    exact .move herase (hset _ (herase.count ▸ hn))
  · next heq =>
    rw [Decidable.not_not] at heq
    subst heq
    split at hf
    · next hkept =>
      cases hf
      rw [htext hkept]
      exact .none fun _ => rfl
    · cases hf
      exact .set (hset h hn)

/-- A property, which may be compared with what the host holds. -/
theorem diffProperty_rewrites {live : Bool} {ws : List Write} (hold : old.writes .prop = some ws)
    (hf : lexem.diffProperty old live n = .ok f) :
    ∃ ws', lexem.writes .prop = some ws' ∧
      ∀ h, n.index < h.count → Rewrites n (ws.map Write.entry) (ws'.map Write.entry) h (f h) := by
  obtain ⟨oldName, oldValue, holdName, holdValue, rfl⟩ := Lexem.property_of_writes hold
  unfold Lexem.diffProperty at hf
  unfold Lexem.writes
  cases hname : lexem.stringArg 0 with
  | error => rw [hname] at hf; cases hf
  | ok name =>
  cases hvalue : lexem.scalarArg 1 with
  | error => rw [hname, holdName, hvalue] at hf; cases hf
  | ok value =>
  rw [hname, holdName, hvalue] at hf
  refine ⟨_, rfl, fun h hn => ?_⟩
  change (if name ≠ oldName then _ else _) = _ at hf
  have hset : ∀ h : Host, n.index < h.count → Touches n (fun π => if π = .property name then
      some value.canonical else (h.content n).held π) h (h.setProperty n name value) := fun h hn =>
    write_touches hn (.property name value)
  have herase := erase_touches hn (.property oldName)
  split at hf
  · cases hf
    exact .move herase (hset _ (herase.count ▸ hn))
  · next heq =>
    rw [Decidable.not_not] at heq
    subst heq
    split at hf
    · cases hf
      dsimp only
      split
      · next hequal =>
        obtain ⟨there, hthere, hequals⟩ := (Option.any_eq_true _ _).mp hequal
        refine ⟨rfl, fun _ _ => rfl, rfl, fun π _ => ?_, fun _ hm => hm⟩
        rw [List.map_singleton, List.map_singleton, Write.entry, Write.entry, lastAt_single, lastAt_single]
        by_cases hπ : π = .property name
        · subst hπ
          have hheld : (h.content n).held (.property name) = some there.canonical := by
            rw [Content.held, show (h.content n).properties.get? name = some there from hthere, Option.map_some]
          rw [hheld, ← Scalar.canonical_of_equals hequals]
          simp [overlay, Write.place, Write.value]
        · simp [overlay, Write.place, hπ]
      · exact .set (hset h hn)
    split at hf
    · next hkept =>
      cases hf
      have hcanonical : value.canonical = oldValue.canonical :=
        Arg.canonical_of_same hkept (Lexem.scalarArg_ok.mp hvalue) (Lexem.scalarArg_ok.mp holdValue)
      refine .none fun π => ?_
      simp [Write.entry, Write.place, Write.value, hcanonical]
    · cases hf
      exact .set (hset h hn)

/-- What is held once one list of classes has come in the place of another. -/
def exchanged (names oldNames : List String) (held : Place → Option Scalar) : Place → Option Scalar
  | .cssClass name =>
      if name ∈ names ∧ name ∉ oldNames then some .null
      else if name ∈ oldNames ∧ name ∉ names then none else held (.cssClass name)
  | π => held π

theorem exchanged_self (names : List String) (held : Place → Option Scalar) : exchanged names names held = held := by
  funext π
  cases π with
  | cssClass name => simp [exchanged]
  | _ => rfl

theorem diffClass_touches (hn : n.index < h.count) :
    Touches n (exchanged lexem.presentClass?.toList old.presentClass?.toList (h.content n).held) h
      (lexem.diffClass old n h) := by
  have hadd : ∀ (h : Host) (name : String), n.index < h.count → Touches n (fun π => if π = .cssClass name then
      some .null else (h.content n).held π) h (h.addClass n name) := fun h name hn =>
    write_touches hn (.cssClass name)
  have hremove : ∀ name : String, Touches n (fun π => if π = .cssClass name then
      none else (h.content n).held π) h (h.removeClass n name) := fun name => erase_touches hn (.cssClass name)
  unfold Lexem.diffClass
  cases lexem.presentClass? with
  | none =>
      cases old.presentClass? with
      | none => exact exchanged_self [] _ ▸ .none h n
      | some oldName =>
          refine (hremove oldName).congr fun π => ?_
          cases π <;> simp [exchanged]
  | some name =>
      cases old.presentClass? with
      | none =>
          refine (hadd h name hn).congr fun π => ?_
          cases π <;> simp [exchanged]
      | some oldName =>
          dsimp only
          split
          · next heq =>
            subst heq
            exact exchanged_self [name] _ ▸ .none h n
          · next hne =>
            refine ((hremove oldName).trans (hadd _ name ((hremove oldName).count ▸ hn))).congr fun π => ?_
            rw [(hremove oldName).held]
            cases π with
            | cssClass other =>
                by_cases hname : other = name <;> by_cases holdName : other = oldName <;> simp_all [exchanged]
            | _ => rfl

/-- What a list of classes leaves at a place. -/
theorem lastAt_classes (names : List String) (π : Place) :
    lastAt ((names.map Write.cssClass).map Write.entry) π =
      if ∃ name ∈ names, π = .cssClass name then some .null else none := by
  induction names with
  | nil => simp [lastAt]
  | cons name names ih =>
      rw [List.map_cons, List.map_cons, lastAt, ih]
      simp only [List.mem_cons, exists_eq_or_imp, Write.entry, Write.place, Write.value]
      by_cases hrest : ∃ name ∈ names, π = .cssClass name
      · rw [if_pos hrest, if_pos (.inr hrest)]
        rfl
      · rw [if_neg hrest, Option.none_or]
        exact if_congr (or_iff_left hrest).symm rfl rfl

theorem Host.Touches.reclassed {names oldNames : List String} {h' : Host}
    (htouches : Touches n (exchanged names oldNames (h.content n).held) h h') :
    Rewrites n ((oldNames.map Write.cssClass).map Write.entry) ((names.map Write.cssClass).map Write.entry) h h' := by
  refine ⟨htouches.count, htouches.others, htouches.kind, fun π hagree => ?_, htouches.childless⟩
  rw [htouches.held]
  rw [lastAt_classes, lastAt_classes] at hagree ⊢
  cases π with
  | cssClass name =>
      simp only [Place.cssClass.injEq, exists_eq_right'] at hagree ⊢
      by_cases hnew : name ∈ names <;> by_cases hold : name ∈ oldNames <;> simp_all [exchanged, overlay]
  | _ => simp [overlay, exchanged]

theorem diffClasses_touches (hsplit : (lexem.arg 0).same (old.arg 0) = true → lexem.splitClasses = old.splitClasses)
    (hn : n.index < h.count) :
    Touches n (exchanged lexem.splitClasses old.splitClasses (h.content n).held) h (lexem.diffClasses old n h) := by
  unfold Lexem.diffClasses
  split
  · next hsame =>
    rw [hsplit hsame, exchanged_self]
    exact .none h n
  generalize lexem.splitClasses = names, old.splitClasses = oldNames
  dsimp only
  have herase := eraseAll_touches hn ((oldNames.filter (· ∉ names)).map Place.cssClass)
  rw [List.foldl_map] at herase
  have hwrite := writeAll_touches (herase.count ▸ hn) ((names.filter (· ∉ oldNames)).map Write.cssClass)
  rw [writeAll, List.foldl_map] at hwrite
  refine (herase.trans hwrite).congr fun π => ?_
  rw [herase.held, lastAt_classes]
  cases π with
  | cssClass name =>
      simp only [List.mem_map, List.mem_filter, decide_not, Bool.not_eq_true', decide_eq_false_iff_not,
        Place.cssClass.injEq, exists_eq_right, exists_eq_right']
      by_cases hnew : name ∈ names <;> by_cases hold : name ∈ oldNames <;> simp_all [exchanged, overlay]
  | _ => simp [exchanged, overlay]

/-- Carrying a word out again lays its entries over those that it had. -/
theorem rewrite_rewrites (htext : ∀ i, (lexem.arg i).same (old.arg i) = true →
      (lexem.arg i).toText = (old.arg i).toText) {i : Instruction} {ws : List Write} (hold : old.writes i = some ws)
    (hf : e.rewrite lexem old n i = some f) :
    ∃ ws', lexem.writes i = some ws' ∧
      ∀ h, n.index < h.count → Rewrites n (ws.map Write.entry) (ws'.map Write.entry) h (f h) := by
  have hok {r : Except PassError (Host → Host)} : r.toOption = some f → r = .ok f := Except.ok_of_toOption
  cases i with
  | attr => exact diffEntry_rewrites .attribute (fun _ _ => rfl) (fun _ _ => rfl) (htext 1) hold (hok hf)
  | prop => exact diffProperty_rewrites hold (hok hf)
  | data => exact diffEntry_rewrites .dataset (fun _ _ => rfl) (fun _ _ => rfl) (htext 1) hold (hok hf)
  | style => exact diffEntry_rewrites .style (fun _ _ => rfl) (fun _ _ => rfl) (htext 1) hold (hok hf)
  | cssClass =>
      cases hf
      cases hold
      exact ⟨_, rfl, fun h hn => (diffClass_touches hn).reclassed⟩
  | classes =>
      cases hf
      cases hold
      refine ⟨_, rfl, fun h hn => (diffClasses_touches (fun hkept => ?_) hn).reclassed⟩
      rw [Lexem.splitClasses, Lexem.splitClasses, htext 0 hkept]
  | id =>
      cases hf
      cases hold
      refine ⟨_, rfl, fun h hn => ?_⟩
      dsimp only
      split
      · next hkept =>
        rw [htext 0 hkept]
        exact .none fun _ => rfl
      · exact .set (write_touches hn (.id (lexem.arg 0).toText))
  | _ => cases hf

/-- Whether a diff may write what a word puts on its node. Properties may be compared with what the host holds,
and then they are written even if the arguments are unchanged. -/
def Engine.rewrites (e : Engine) (lexem old : Lexem) : Bool :=
  lexem.argsChanged old || e.config.liveProperties && e.instruction? lexem = some .prop

/-- A word that is not written again leaves the host alone. -/
theorem rewrite_unchanged (hR : Likeness R) (halike : lexem.Alike R old) {i : Instruction} {ws : List Write}
    (hword : e.instruction? lexem = some i) (hold : old.writes i = some ws)
    (hunchanged : e.rewrites lexem old = false) (hf : e.rewrite lexem old n i = some f) (h : Host) : f h = h := by
  simp only [Engine.rewrites, Bool.or_eq_false_iff] at hunchanged
  obtain ⟨hargs, hlive⟩ := hunchanged
  have hsame := Lexem.same_of_unchanged hargs
  have hentry : ∀ {set : String → String → Host → Host} {remove : String → Host → Host},
      (lexem.diffEntry old set remove).toOption = some f → f h = h := by
    intro set remove hf
    unfold Lexem.diffEntry at hf
    cases hkey : lexem.stringArg 0 with
    | error => rw [hkey] at hf; cases hf
    | ok key =>
    have holdKey : old.stringArg 0 = .ok key := (hR.conformity.stringArg_eq halike 0).symm.trans hkey
    rw [hkey, holdKey] at hf
    change Except.toOption (if key ≠ key then _ else _) = _ at hf
    rw [if_neg (by simp), hsame 1, if_pos rfl] at hf
    cases hf
    rfl
  cases i with
  | attr | data | style => exact hentry hf
  | prop =>
      have hlive : e.config.liveProperties = false := by simpa [hword] using hlive
      unfold Engine.rewrite Lexem.diffProperty at hf
      cases hname : lexem.stringArg 0 with
      | error => rw [hname] at hf; cases hf
      | ok name =>
      have holdName : old.stringArg 0 = .ok name := (hR.conformity.stringArg_eq halike 0).symm.trans hname
      cases hvalue : lexem.scalarArg 1 with
      | error => rw [hname, holdName, hvalue] at hf; cases hf
      | ok value =>
      rw [hname, holdName, hvalue] at hf
      change Except.toOption (if name ≠ name then _ else _) = _ at hf
      rw [if_neg (by simp), hlive, if_neg (by simp), hsame 1, if_pos rfl] at hf
      cases hf
      rfl
  | cssClass =>
      cases hf
      rw [Lexem.diffClass, hR.conformity.presentClass_eq halike]
      cases old.presentClass? with
      | none => rfl
      | some name => simp
  | classes =>
      cases hf
      rw [Lexem.diffClasses, hsame 0, if_pos rfl]
  | id =>
      cases hf
      dsimp only
      rw [hsame 0, if_pos rfl]
  | _ => cases hf

/-- Removing the slot of a word erases what the word had put. -/
theorem clear_erases {i : Instruction} {ws : List Write} (hword : e.instruction? lexem = some i)
    (hwrites : lexem.writes i = some ws) :
    lexem.clear n h = (ws.map Write.place).foldl (fun h place => h.erase n place) h := by
  have hname : Instruction.ofName? lexem.name = some i := by
    unfold Engine.instruction? at hword
    split at hword
    · split at hword
      · cases hword
      · exact hword
    · exact hword
  have hkey : ∀ {key : String}, lexem.stringArg 0 = .ok key → (lexem.arg 0).toText = key := by
    intro key hkey
    rw [Lexem.stringArg_ok.mp hkey]
    rfl
  unfold Lexem.clear
  rw [hname]
  cases i with
  | attr | data | style =>
      obtain ⟨key, hok, rfl⟩ := Lexem.entry_of_writes hwrites
      rw [hkey hok]
      rfl
  | prop =>
      obtain ⟨name, value, hok, -, rfl⟩ := Lexem.property_of_writes hwrites
      rw [hkey hok]
      rfl
  | cssClass =>
      cases hwrites
      cases lexem.presentClass? <;> rfl
  | classes =>
      cases hwrites
      rw [List.map_map, List.foldl_map]
      rfl
  | id =>
      cases hwrites
      rfl
  | _ => cases hwrites

end Rewriting

end Parlance
