import Parlance.Proofs.Engine.Rewriting
import Parlance.Proofs.Host.Links

/-! What becomes of a node when a word is carried out on it again, or cleared from it. Nothing but what the node
shows is changed, and of that only the places that the word had taken or takes now; a place that it takes no
longer is empty. -/

namespace Parlance

open Host

section Inversion

variable {lexem old : Lexem} {f : Host → Host}

/-- What bringing an entry up to date does. -/
theorem Lexem.diffEntry_ok {set : String → String → Host → Host} {remove : String → Host → Host}
    (hf : lexem.diffEntry old set remove = .ok f) :
    ∃ key oldKey, lexem.stringArg 0 = .ok key ∧ old.stringArg 0 = .ok oldKey ∧
      (key ≠ oldKey ∧ (f = fun h => set key (lexem.arg 1).toText (remove oldKey h)) ∨
        key = oldKey ∧ (f = id ∨ f = set key (lexem.arg 1).toText)) := by
  unfold Lexem.diffEntry at hf
  cases hkey : lexem.stringArg 0 with
  | error => rw [hkey] at hf; cases hf
  | ok key =>
  cases holdKey : old.stringArg 0 with
  | error => rw [hkey, holdKey] at hf; cases hf
  | ok oldKey =>
  rw [hkey, holdKey] at hf
  change (if key ≠ oldKey then _ else _) = _ at hf
  refine ⟨key, oldKey, rfl, rfl, ?_⟩
  split at hf
  next hne =>
    cases hf
    exact .inl ⟨hne, rfl⟩
  next heq =>
    refine .inr ⟨Decidable.not_not.mp heq, ?_⟩
    split at hf
    · cases hf
      exact .inl rfl
    · cases hf
      exact .inr rfl

/-- What bringing a property up to date does. -/
theorem Lexem.diffProperty_ok {live : Bool} {n : NodeId} (hf : lexem.diffProperty old live n = .ok f) :
    ∃ name oldName value, lexem.stringArg 0 = .ok name ∧ old.stringArg 0 = .ok oldName ∧
      lexem.scalarArg 1 = .ok value ∧
      (name ≠ oldName ∧ (f = fun h => (h.removeProperty n oldName).setProperty n name value) ∨
        name = oldName ∧ ∀ h, f h = h ∨ f h = h.setProperty n name value) := by
  unfold Lexem.diffProperty at hf
  cases hname : lexem.stringArg 0 with
  | error => rw [hname] at hf; cases hf
  | ok name =>
  cases holdName : old.stringArg 0 with
  | error => rw [hname, holdName] at hf; cases hf
  | ok oldName =>
  cases hvalue : lexem.scalarArg 1 with
  | error => rw [hname, holdName, hvalue] at hf; cases hf
  | ok value =>
  rw [hname, holdName, hvalue] at hf
  change (if name ≠ oldName then _ else _) = _ at hf
  refine ⟨name, oldName, value, rfl, rfl, rfl, ?_⟩
  split at hf
  next hne =>
    cases hf
    exact .inl ⟨hne, rfl⟩
  next heq =>
    refine .inr ⟨Decidable.not_not.mp heq, fun h => ?_⟩
    split at hf
    · cases hf
      dsimp only
      split
      · exact .inl rfl
      · exact .inr rfl
    split at hf
    · cases hf
      exact .inl rfl
    · cases hf
      exact .inr rfl

end Inversion

/-- The places at which a word puts entries, as its arguments name them. -/
def Lexem.spots (lexem : Lexem) : Instruction → List Place
  | .attr => [.attribute (lexem.arg 0).toText]
  | .prop => [.property (lexem.arg 0).toText]
  | .data => [.dataset (lexem.arg 0).toText]
  | .style => [.style (lexem.arg 0).toText]
  | .cssClass => lexem.presentClass?.toList.map .cssClass
  | .classes => lexem.splitClasses.map .cssClass
  | .id => [.id]
  | _ => []

/-- What a word writes stands at its places. -/
theorem Lexem.spots_eq {lexem : Lexem} {i : Instruction} {ws : List Write} (hwrites : lexem.writes i = some ws) :
    lexem.spots i = ws.map Write.place := by
  have hkey : ∀ {put : String → Write} {place : String → Place}, (∀ k, (put k).place = place k) →
      (lexem.stringArg 0).toOption.map (fun k => [put k]) = some ws →
      [place (lexem.arg 0).toText] = ws.map Write.place := by
    intro put place hplace h
    obtain ⟨key, hkey, rfl⟩ := Option.map_eq_some_iff.mp h
    rw [List.map_singleton, hplace, Lexem.stringArg_ok.mp (Except.ok_of_toOption hkey)]
    rfl
  cases i with
  | attr | data | style => exact hkey (fun _ => rfl) hwrites
  | prop =>
      cases hname : lexem.stringArg 0 <;> cases hvalue : lexem.scalarArg 1 <;>
        simp only [writes, hname, hvalue, Option.some.injEq, reduceCtorEq] at hwrites
      rw [spots, Lexem.stringArg_ok.mp hname, ← hwrites]
      rfl
  | cssClass | classes =>
      cases hwrites
      rw [spots, List.map_map]
      rfl
  | id =>
      cases hwrites
      rfl
  | _ => cases hwrites

/-- A place is one at which a word puts an entry. -/
def Lexem.Names (lexem : Lexem) (π : Place) : Prop := ∃ i, Instruction.ofName? lexem.name = some i ∧ π ∈ lexem.spots i

namespace Host

/-- Entries of a node have been written and erased, at some places only. -/
inductive Strokes (n : NodeId) (places : List Place) : Host → Host → Prop
  | refl {h : Host} : Strokes n places h h
  | write {h h' : Host} {w : Write} (hw : w.place ∈ places) (rest : Strokes n places (h.write n w) h') :
      Strokes n places h h'
  | erase {h h' : Host} {π : Place} (hπ : π ∈ places) (rest : Strokes n places (h.erase n π) h') :
      Strokes n places h h'

namespace Strokes

variable {n : NodeId} {places : List Place} {h h₁ h' : Host}

theorem trans (hfirst : Strokes n places h h₁) (hsecond : Strokes n places h₁ h') : Strokes n places h h' := by
  induction hfirst with
  | refl => exact hsecond
  | write hw _ ih => exact .write hw (ih hsecond)
  | erase hπ _ ih => exact .erase hπ (ih hsecond)

theorem foldl {α : Type} {f : Host → α → Host} {as : List α} (hf : ∀ a ∈ as, ∀ h, Strokes n places h (f h a))
    (h : Host) : Strokes n places h (as.foldl f h) := by
  induction as generalizing h with
  | nil => exact .refl
  | cons a as ih =>
      exact (hf a List.mem_cons_self h).trans (ih (fun a' ha' => hf a' (List.mem_cons_of_mem _ ha')) _)

/-- Nothing but what the node shows is changed. -/
theorem inscribes (hstrokes : Strokes n places h h') : Inscribes n h h' := by
  induction hstrokes with
  | refl => exact .refl n _
  | @write h _ w _ _ ih =>
      refine Inscribes.trans ?_ ih
      cases w <;> exact .entry h n _ _ rfl
  | @erase h _ π _ _ ih =>
      refine Inscribes.trans ?_ ih
      cases π <;> exact .entry h n _ _ rfl

/-- Nothing has happened at other places. -/
theorem stored (hstrokes : Strokes n places h h') {π : Place} (hπ : π ∉ places) :
    (h'.content n).stored π = (h.content n).stored π := by
  have hmodify : ∀ (h : Host) (g : Content → Content) (m : Mutation),
      (g (h.content n)).stored π = (h.content n).stored π →
      (((h.modifyContent n g).record m).content n).stored π = (h.content n).stored π := by
    intro h g m hg
    rw [content, node_record, modifyContent, node_modify]
    split
    · exact hg
    · rfl
  induction hstrokes with
  | refl => rfl
  | @write h _ w hw _ ih =>
      have hne : π ≠ w.place := fun heq => hπ (heq ▸ hw)
      refine ih.trans ?_
      cases w <;> exact hmodify h _ _ (Content.stored_enter_of_ne (h.content n) hne)
  | @erase h _ place hplace _ ih =>
      have hne : π ≠ place := fun heq => hπ (heq ▸ hplace)
      refine ih.trans ?_
      cases place <;> exact hmodify h _ _ (Content.stored_leave_of_ne (h.content n) hne)

end Strokes

end Host

section Inscribing

variable {e : Engine} {lexem old : Lexem} {n : NodeId} {i : Instruction} {f : Host → Host} {places : List Place}

/-- Carrying a word out again changes entries only where it puts them and where it has put them. -/
theorem rewrite_strokes (hf : e.rewrite lexem old n i = some f) (hnew : lexem.spots i ⊆ places)
    (hold : old.spots i ⊆ places) (h : Host) : Strokes n places h (f h) := by
  have hset : ∀ {w : Write} {place : Place}, w.place = place → place ∈ places → ∀ h, Strokes n places h (h.write n w) :=
    fun hw hplace _ => .write (hw ▸ hplace) .refl
  have hleave : ∀ {place : Place}, place ∈ places → ∀ h, Strokes n places h (h.erase n place) :=
    fun hplace _ => .erase hplace .refl
  have hentry : ∀ (put : String → String → Write) {place : String → Place}, (∀ k v, (put k v).place = place k) →
      [place (lexem.arg 0).toText] ⊆ places → [place (old.arg 0).toText] ⊆ places →
      (lexem.diffEntry old (fun k v h => h.write n (put k v)) fun k h => h.erase n (place k)).toOption = some f →
      Strokes n places h (f h) := by
    intro put place hplace hnew hold hf
    obtain ⟨key, oldKey, hkey, holdKey, hcases⟩ := Lexem.diffEntry_ok (Except.ok_of_toOption hf)
    rw [Lexem.stringArg_ok.mp hkey] at hnew
    rw [Lexem.stringArg_ok.mp holdKey] at hold
    have hwrite : ∀ h : Host, Strokes n places h (h.write n (put key (lexem.arg 1).toText)) :=
      hset (hplace _ _) (hnew List.mem_cons_self)
    obtain ⟨-, rfl⟩ | ⟨-, rfl | rfl⟩ := hcases
    · exact (hleave (hold List.mem_cons_self) h).trans (hwrite _)
    · exact .refl
    · exact hwrite h
  cases i with
  | attr => exact hentry .attribute (fun _ _ => rfl) hnew hold hf
  | data => exact hentry .dataset (fun _ _ => rfl) hnew hold hf
  | style => exact hentry .style (fun _ _ => rfl) hnew hold hf
  | prop =>
      obtain ⟨name, oldName, value, hname, holdName, -, hcases⟩ := Lexem.diffProperty_ok (Except.ok_of_toOption hf)
      rw [Lexem.spots, Lexem.stringArg_ok.mp hname] at hnew
      rw [Lexem.spots, Lexem.stringArg_ok.mp holdName] at hold
      have hwrite : ∀ h : Host, Strokes n places h (h.write n (.property name value)) :=
        hset rfl (hnew List.mem_cons_self)
      obtain ⟨-, rfl⟩ | ⟨-, hsame⟩ := hcases
      · exact (hleave (hold List.mem_cons_self) h).trans (hwrite _)
      · rcases hsame h with heq | heq <;> rw [heq]
        · exact .refl
        · exact hwrite h
  | cssClass =>
      cases hf
      unfold Lexem.spots at hnew hold
      unfold Lexem.diffClass
      split
      next name oldName hname holdName =>
        rw [hname] at hnew
        rw [holdName] at hold
        split
        · exact .refl
        · exact (hleave (hold List.mem_cons_self) h).trans (hset (w := .cssClass name) rfl (hnew List.mem_cons_self) _)
      next name hname _ =>
        rw [hname] at hnew
        exact hset (w := .cssClass name) rfl (hnew List.mem_cons_self) h
      next oldName _ holdName =>
        rw [holdName] at hold
        exact hleave (hold List.mem_cons_self) h
      next => exact .refl
  | classes =>
      cases hf
      unfold Lexem.spots at hnew hold
      unfold Lexem.diffClasses
      split
      · exact .refl
      · refine (Strokes.foldl (fun name hname => ?_) h).trans (.foldl (fun name hname => ?_) _)
        · exact hleave (hold (List.mem_map_of_mem (List.mem_filter.mp hname).1))
        · exact hset (w := .cssClass name) rfl (hnew (List.mem_map_of_mem (List.mem_filter.mp hname).1))
  | id =>
      cases hf
      dsimp only
      split
      · exact .refl
      · exact hset (w := .id _) rfl (hnew List.mem_cons_self) h
  | _ => cases hf

theorem rewrite_inscribes (hf : e.rewrite lexem old n i = some f) (h : Host) : Inscribes n h (f h) :=
  (rewrite_strokes hf (List.subset_append_left _ _) (List.subset_append_right _ _) h).inscribes

theorem Engine.ofName_of_instruction (hword : e.instruction? lexem = some i) :
    Instruction.ofName? lexem.name = some i := by
  unfold Engine.instruction? at hword
  split at hword
  · split at hword
    · cases hword
    · exact hword
  · exact hword

/-- Clearing a word erases what stands at its places. -/
theorem Lexem.clear_eq (node : NodeId) (lexem : Lexem) (h : Host) : lexem.clear node h =
    (((Instruction.ofName? lexem.name).elim [] lexem.spots).foldl (fun h place => h.erase node place) h) := by
  unfold Lexem.clear
  cases hword : Instruction.ofName? lexem.name with
  | none => rfl
  | some i =>
      cases i with
      | cssClass => cases hclass : lexem.presentClass? <;> simp [spots, hclass, erase]
      | classes =>
          rw [Option.elim_some, spots, List.foldl_map]
          rfl
      | _ => rfl

theorem Lexem.clear_strokes (node : NodeId) (lexem : Lexem) (h : Host) :
    Strokes node ((Instruction.ofName? lexem.name).elim [] lexem.spots) h (lexem.clear node h) := by
  rw [Lexem.clear_eq]
  exact .foldl (fun _ hplace _ => .erase hplace .refl) h

theorem Lexem.clear_inscribes (node : NodeId) (lexem : Lexem) (h : Host) : Inscribes node h (lexem.clear node h) :=
  (lexem.clear_strokes node h).inscribes

/-- What is cleared stands at places that the word names. -/
theorem Lexem.names_of_clear {π : Place} (hπ : π ∈ (Instruction.ofName? lexem.name).elim [] lexem.spots) :
    lexem.Names π := by
  cases hi : Instruction.ofName? lexem.name with
  | none => simp [hi] at hπ
  | some i => exact ⟨i, hi, by simpa [hi] using hπ⟩

end Inscribing

section Leaving

variable {e : Engine} {lexem old : Lexem} {n : NodeId} {i : Instruction} {f : Host → Host} {h : Host} {π : Place}

/-- Nothing stands at the places of a word that has been cleared. -/
theorem clear_leaves (hn : n.index < h.count) (hword : e.instruction? lexem = some i) (hπ : π ∈ lexem.spots i) :
    ((lexem.clear n h).content n).held π = none := by
  rw [Lexem.clear_eq, Engine.ofName_of_instruction hword, (eraseAll_touches hn _).held]
  exact if_pos hπ

/-- A place that is left for another one is empty. -/
theorem held_write_erase (hn : n.index < h.count) {w : Write} (hne : π ≠ w.place) :
    (((h.erase n π).write n w).content n).held π = none := by
  have herase := erase_touches hn π
  rw [(write_touches (herase.count ▸ hn) w).held, if_neg hne, herase.held, if_pos rfl]

/-- A class that goes and does not come again is gone. -/
theorem held_foldl_classes (hn : n.index < h.count) {gone come : List String} {name : String} (hgone : name ∈ gone)
    (hcome : name ∉ come) : ((come.foldl (fun h name => h.addClass n name)
      (gone.foldl (fun h name => h.removeClass n name) h)).content n).held (.cssClass name) = none := by
  have heq : come.foldl (fun h name => h.addClass n name) (gone.foldl (fun h name => h.removeClass n name) h) =
      ((gone.map Place.cssClass).foldl (fun h place => h.erase n place) h).writeAll n (come.map .cssClass) := by
    rw [writeAll, List.foldl_map, List.foldl_map]
    rfl
  have herase := eraseAll_touches hn (gone.map Place.cssClass)
  have hnone : lastAt ((come.map Write.cssClass).map Write.entry) (.cssClass name) = none := by
    rw [lastAt_classes, if_neg]
    rintro ⟨other, hother, hsame⟩
    exact hcome (Place.cssClass.inj hsame ▸ hother)
  rw [heq, (writeAll_touches (herase.count ▸ hn) _).held, hnone, herase.held, if_pos (List.mem_map_of_mem hgone)]
  rfl

/-- When a word is carried out again, nothing is left at the places that it had taken and takes no longer. Classes are
compared by their argument, so one that counts as unchanged has to have the same text. -/
theorem rewrite_leaves (hsame : (lexem.arg 0).same (old.arg 0) = true → (lexem.arg 0).toText = (old.arg 0).toText)
    (hf : e.rewrite lexem old n i = some f) (hn : n.index < h.count) (hold : π ∈ old.spots i)
    (hnew : π ∉ lexem.spots i) : ((f h).content n).held π = none := by
  have hentry : ∀ (put : String → String → Write) {place : String → Place}, (∀ k v, (put k v).place = place k) →
      π ∈ [place (old.arg 0).toText] → π ∉ [place (lexem.arg 0).toText] →
      (lexem.diffEntry old (fun k v h => h.write n (put k v)) fun k h => h.erase n (place k)).toOption = some f →
      ((f h).content n).held π = none := by
    intro put place hplace hold hnew hf
    obtain ⟨key, oldKey, hkey, holdKey, hcases⟩ := Lexem.diffEntry_ok (Except.ok_of_toOption hf)
    rw [Lexem.stringArg_ok.mp holdKey] at hold
    rw [Lexem.stringArg_ok.mp hkey] at hnew
    obtain rfl : π = place oldKey := List.mem_singleton.mp hold
    obtain ⟨-, rfl⟩ | ⟨rfl, -⟩ := hcases
    · exact held_write_erase hn fun heq => hnew (List.mem_singleton.mpr (heq.trans (hplace _ _)))
    · exact absurd List.mem_cons_self hnew
  cases i with
  | attr => exact hentry .attribute (fun _ _ => rfl) hold hnew hf
  | data => exact hentry .dataset (fun _ _ => rfl) hold hnew hf
  | style => exact hentry .style (fun _ _ => rfl) hold hnew hf
  | prop =>
      obtain ⟨name, oldName, value, hname, holdName, -, hcases⟩ := Lexem.diffProperty_ok (Except.ok_of_toOption hf)
      rw [Lexem.spots, Lexem.stringArg_ok.mp holdName] at hold
      rw [Lexem.spots, Lexem.stringArg_ok.mp hname] at hnew
      obtain rfl : π = .property oldName := List.mem_singleton.mp hold
      obtain ⟨-, rfl⟩ | ⟨rfl, -⟩ := hcases
      · have hne : Place.property oldName ≠ (Write.property name value).place := fun heq =>
          hnew (List.mem_singleton.mpr heq)
        exact held_write_erase hn hne
      · exact absurd List.mem_cons_self hnew
  | cssClass =>
      cases hf
      unfold Lexem.spots at hold hnew
      cases holdName : old.presentClass? with
      | none => simp [holdName] at hold
      | some oldName =>
      obtain rfl : π = .cssClass oldName := by simpa [holdName] using hold
      unfold Lexem.diffClass
      cases hname : lexem.presentClass? with
      | none =>
          rw [holdName]
          exact ((erase_touches hn (.cssClass oldName)).held _).trans (if_pos rfl)
      | some name =>
          have hne : oldName ≠ name := by simpa [hname] using hnew
          have hempty : (((h.erase n (.cssClass oldName)).write n (.cssClass name)).content n).held (.cssClass oldName) =
              none := held_write_erase hn fun heq => hne (Place.cssClass.inj heq)
          rw [holdName]
          dsimp only
          rw [if_neg hne.symm]
          exact hempty
  | classes =>
      cases hf
      unfold Lexem.spots at hold hnew
      unfold Lexem.diffClasses
      split
      next hkept =>
        refine absurd ?_ hnew
        rwa [Lexem.splitClasses, hsame hkept]
      next =>
        obtain ⟨name, hname, rfl⟩ := List.mem_map.mp hold
        have hgone : name ∉ lexem.splitClasses := fun hmem => hnew (List.mem_map_of_mem hmem)
        refine held_foldl_classes hn (List.mem_filter.mpr ⟨hname, decide_eq_true hgone⟩) fun hmem => hgone ?_
        exact (List.mem_filter.mp hmem).1
  | id => exact absurd hold hnew
  | _ => cases hf

end Leaving

end Parlance
