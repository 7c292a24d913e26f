import Parlance.Proofs.Engine.Rows
import Parlance.Proofs.Engine.Unfolding

/-! What is kept of an output is sound: every slot is of the kind that its lexem leaves, and its parts came of
phrases like those that the lexem would unfold to now. The parts may well be of different age. This is what a
diff relies on when it leaves something alone. -/

namespace Parlance

variable {ω : Type}

/-- A slot of the kind that a lexem leaves, with arguments that are in order for its word. Hooks and components
are left out. -/
inductive Engine.Fits (e : Engine) (lexem : Lexem) : Slot → Prop
  | skipped (hspace : e.isTarget lexem.space = false) : Fits e lexem .skipped
  | compound {r : Rendered} (hspace : e.isTarget lexem.space = true) (hword : e.instruction? lexem = none) :
      Fits e lexem (.compound r)
  | attribute {i : Instruction} {ws : List Write} (hspace : e.isTarget lexem.space = true)
      (hword : e.instruction? lexem = some i) (hwrites : lexem.writes i = some ws) : Fits e lexem .attribute
  | text {node : NodeId} (hspace : e.isTarget lexem.space = true) (hword : e.instruction? lexem = some .text) :
      Fits e lexem (.text node)
  | element {node : NodeId} {kids : List Rendered} {tag : String} (hspace : e.isTarget lexem.space = true)
      (hword : e.instruction? lexem = some .tag) (htag : lexem.stringArg 0 = .ok tag) :
      Fits e lexem (.element node kids)
  | listener {id : ListenerId} {event : String} {listener : Listener} (hspace : e.isTarget lexem.space = true)
      (hword : e.instruction? lexem = some .on) (hevent : lexem.stringArg 0 = .ok event)
      (hlistener : lexem.listener = .ok listener) : Fits e lexem (.listener id)
  | branch {witness : NodeId} {developed : Option Rendered} {i : Instruction}
      (hspace : e.isTarget lexem.space = true) (hword : e.instruction? lexem = some i)
      (hi : i = .ifElse ∨ i = .switchUse) : Fits e lexem (.branch witness developed)
  | each {witness : NodeId} {items : List Rendered} (hspace : e.isTarget lexem.space = true)
      (hword : e.instruction? lexem = some .each) : Fits e lexem (.each witness items)
  | raw {witness : NodeId} {nodes : List NodeId} (hspace : e.isTarget lexem.space = true)
      (hword : e.instruction? lexem = some .html) : Fits e lexem (.raw witness nodes)
  | callback {callback : Identity} (hspace : e.isTarget lexem.space = true)
      (hword : e.instruction? lexem = some .execute) (hcallback : lexem.callbackArg = .ok callback) :
      Fits e lexem .effect
  | name (hspace : e.isTarget lexem.space = true) (hword : e.instruction? lexem = some .ref) :
      Fits e lexem .effect

/-- The arguments of a listener are in order for every lexem that is alike. -/
theorem Similarity.listener_ok {R : Arg → Arg → Prop} (hR : Similarity R) {l l' : Lexem} (h : l'.Alike R l)
    {listener : Listener} (hlistener : l.listener = .ok listener) : ∃ listener', l'.listener = .ok listener' := by
  have harg := hR.resembles (hR.conformity.arg h 1)
  unfold Lexem.listener at hlistener ⊢
  generalize l.arg 1 = arg, l'.arg 1 = arg' at harg hlistener
  cases harg with
  | handler => exact ⟨_, rfl⟩
  | _ => cases hlistener

theorem Similarity.callback_ok {R : Arg → Arg → Prop} (hR : Similarity R) {l l' : Lexem} (h : R (l'.arg 0) (l.arg 0))
    {callback : Identity} (hcallback : l.callbackArg = .ok callback) :
    ∃ callback', l'.callbackArg = .ok callback' := by
  have harg := hR.resembles h
  unfold Lexem.callbackArg at hcallback ⊢
  generalize hinvalid : l.invalid 0 _ = failure at hcallback
  generalize l.arg 0 = arg, l'.arg 0 = arg' at harg hcallback
  cases harg with
  | callback => exact ⟨_, rfl⟩
  | _ =>
      subst hinvalid
      cases hcallback

/-- What a lexem puts on its node is the same for every lexem that is alike. -/
theorem Similarity.writes_ok {R : Arg → Arg → Prop} (hR : Similarity R) {l l' : Lexem} (h : l'.Alike R l)
    {i : Instruction} {ws : List Write} (hwrites : l.writes i = some ws) :
    ∃ ws', l'.writes i = some ws' ∧ ws'.map Write.entry = ws.map Write.entry := by
  have hname := hR.conformity.stringArg_eq h 0
  have htext := hR.conformity.toText_eq (hR.conformity.arg h 1)
  cases i with
  | attr | data | style =>
      rw [Lexem.writes, ← hname] at hwrites
      rw [Lexem.writes, htext]
      exact ⟨ws, hwrites, rfl⟩
  | prop =>
      have hscalar := (hR.resembles (hR.conformity.arg h 1)).conforms.toScalar_eq
      simp only [Lexem.writes] at hwrites ⊢
      rw [← hname] at hwrites
      cases hok : l'.stringArg 0 with
      | error => rw [hok] at hwrites; cases hwrites
      | ok name =>
      cases hvalue : l.scalarArg 1 with
      | error => rw [hok, hvalue] at hwrites; cases hwrites
      | ok value =>
      rw [hok, hvalue] at hwrites
      cases hwrites
      rw [Lexem.scalarArg_eq_ok.mp hvalue, Option.map_some, Option.map_eq_some_iff] at hscalar
      obtain ⟨value', hsome', hcanonical⟩ := hscalar
      have hvalue' : l'.scalarArg 1 = .ok value' := Lexem.scalarArg_eq_ok.mpr hsome'
      rw [hvalue']
      exact ⟨_, rfl, by simp [Write.entry, Write.place, Write.value, hcanonical]⟩
  | cssClass =>
      rw [Lexem.writes, ← hR.conformity.presentClass_eq h] at hwrites
      exact ⟨ws, hwrites, rfl⟩
  | classes =>
      rw [Lexem.writes, ← hR.conformity.splitClasses_eq h] at hwrites
      exact ⟨ws, hwrites, rfl⟩
  | id =>
      rw [Lexem.writes, ← hR.conformity.toText_eq (hR.conformity.arg h 0)] at hwrites
      exact ⟨ws, hwrites, rfl⟩
  | _ => cases hwrites

namespace Engine

variable {e : Engine} {l l' : Lexem} {slot : Slot} {R : Arg → Arg → Prop}

theorem Fits.serve (hR : Likeness R) (hserves : e.Serves R l' l) (h : e.Fits l slot) : e.Fits l' slot := by
  have hword : e.instruction? l' = e.instruction? l := instruction_congr hserves.space hserves.name
  have hspace : e.isTarget l'.space = e.isTarget l.space := by rw [hserves.space]
  have halike : ∀ {i : Option Instruction}, e.instruction? l = i → i ≠ some .switchUse → i ≠ some .execute →
      l'.Alike R l := by
    rintro _ rfl hswitch hexecute
    exact hserves.alike (by simp [packs, hword, hswitch, hexecute])
  cases h with
  | skipped htarget => exact .skipped (hspace.trans htarget)
  | compound htarget hnone => exact .compound (hspace.trans htarget) (hword.trans hnone)
  | «attribute» htarget hsome hwrites =>
      have hl := halike hsome (by rintro ⟨⟩; cases hwrites) (by rintro ⟨⟩; cases hwrites)
      obtain ⟨ws', hwrites', -⟩ := hR.writes_ok hl hwrites
      exact .attribute (hspace.trans htarget) (hword.trans hsome) hwrites'
  | text htarget hsome => exact .text (hspace.trans htarget) (hword.trans hsome)
  | element htarget hsome htag =>
      have hl := halike hsome (by simp) (by simp)
      exact .element (hspace.trans htarget) (hword.trans hsome) ((hR.conformity.stringArg_eq hl 0).trans htag)
  | listener htarget hsome hevent hlistener =>
      have hl := halike hsome (by simp) (by simp)
      obtain ⟨listener', hlistener'⟩ := hR.listener_ok hl hlistener
      exact .listener (hspace.trans htarget) (hword.trans hsome)
        ((hR.conformity.stringArg_eq hl 0).trans hevent) hlistener'
  | branch htarget hsome hi => exact .branch (hspace.trans htarget) (hword.trans hsome) hi
  | each htarget hsome => exact .each (hspace.trans htarget) (hword.trans hsome)
  | raw htarget hsome => exact .raw (hspace.trans htarget) (hword.trans hsome)
  | callback htarget hsome hcallback =>
      have hpacked := (hserves.packed (by simp [packs, hword, hsome])).1
      obtain ⟨callback', hcallback'⟩ := hR.callback_ok hpacked hcallback
      exact .callback (hspace.trans htarget) (hword.trans hsome) hcallback'
  | name htarget hsome => exact .name (hspace.trans htarget) (hword.trans hsome)

end Engine

section Growing

variable {b : Behaviour ω} (P : Purity b) (e : Engine)

/-- A lexem and its slot, as far as the parts of the slot are not looked into. -/
structure Rooted (w : ω) (n : Nat) (lexem : Lexem) (slot : Slot) : Prop where
  fits : e.Fits lexem slot
  known : lexem.Alike (P.alike w) lexem
  yields : P.Yields e w lexem (slot.parts.map Rendered.phrase)
  /-- There is a level left for the parts. -/
  deep : slot.parts ≠ [] → 0 < n
  paired : ∀ r ∈ slot.parts, r.Paired
  named : ∀ r ∈ slot.parts, ∀ i, r.identity = some i → P.alike w (.sentence i r.sentence) (.sentence i r.sentence)

/-- Lexems and slots that have grown soundly, down to the given number of levels. -/
inductive Grown (w : ω) : Nat → List Lexem → List Slot → Prop
  | nil {n : Nat} : Grown w n [] []
  | cons {n : Nat} {lexem : Lexem} {slot : Slot} {lexems : List Lexem} {slots : List Slot}
      (hroot : Rooted P e w n lexem slot) (hinner : Grown w (n - 1) (lexemsOf slot.parts) (slotsOf slot.parts))
      (houter : Grown w n lexems slots) : Grown w n (lexem :: lexems) (slot :: slots)

variable {P e} {w w' : ω} {n : Nat} {lexem lexem' : Lexem} {slot : Slot}
variable {lexems lexems' : List Lexem} {slots slots' : List Slot}

namespace Rooted

theorem mono (h : Rooted P e w n lexem slot) (hlater : P.later w w') : Rooted P e w' n lexem slot :=
  ⟨h.fits, Purity.lexem_mono hlater h.known, h.yields.mono hlater, h.deep, h.paired,
    fun r hr i hi => P.mono hlater (h.named r hr i hi)⟩

/-- Another lexem takes the place of the one before. -/
theorem serve (h : Rooted P e w n lexem slot) (hknown : lexem'.Alike (P.alike w) lexem')
    (hserves : e.Serves (P.alike w) lexem' lexem) : Rooted P e w n lexem' slot :=
  ⟨h.fits.serve (P.likeness w) hserves, hknown, h.yields.serve hserves, h.deep, h.paired, h.named⟩

end Rooted

namespace Grown

theorem mono (h : Grown P e w n lexems slots) (hlater : P.later w w') : Grown P e w' n lexems slots := by
  induction h with
  | nil => exact .nil
  | cons hroot _ _ ihinner ihouter => exact .cons (hroot.mono hlater) ihinner ihouter

theorem append (h : Grown P e w n lexems slots) (h' : Grown P e w n lexems' slots') :
    Grown P e w n (lexems ++ lexems') (slots ++ slots') := by
  induction h with
  | nil => exact h'
  | cons hroot hinner _ _ ih => exact .cons hroot hinner (ih h')

theorem split (hlength : lexems.length = slots.length) (h : Grown P e w n (lexems ++ lexems') (slots ++ slots')) :
    Grown P e w n lexems slots ∧ Grown P e w n lexems' slots' := by
  induction lexems generalizing slots with
  | nil =>
      rw [List.length_nil, eq_comm, List.length_eq_zero_iff] at hlength
      subst hlength
      exact ⟨.nil, h⟩
  | cons lexem lexems ih =>
      cases slots with
      | nil => simp at hlength
      | cons slot slots =>
          cases h with
          | cons hroot hinner houter =>
              obtain ⟨hslots, hslots'⟩ := ih (by simpa using hlength) houter
              exact ⟨.cons hroot hinner hslots, hslots'⟩

theorem length_eq (h : Grown P e w n lexems slots) : lexems.length = slots.length := by
  induction h with
  | nil => rfl
  | cons _ _ _ _ ih => rw [List.length_cons, List.length_cons, ih]

theorem known (h : Grown P e w n lexems slots) : P.Known w lexems := by
  induction h with
  | nil => exact .nil
  | cons hroot _ _ _ ih => exact .cons hroot.known ih

/-- There are no components in what has grown. -/
theorem holds (h : Grown P e w n lexems slots) (t : Array Instance) : Holds t slots [] := by
  induction h with
  | nil => exact .nil
  | cons hroot _ _ ihinner ihouter =>
      refine Holds.part ?_ hroot.paired ihinner ihouter
      rintro id rfl
      cases hroot.fits

theorem bare (h : Grown P e w n lexems slots) : Bare slots := by
  induction h with
  | nil => exact .nil
  | cons hroot _ _ ihinner ihouter =>
      refine .cons ?_ ?_ ihinner ihouter
      · rintro node rfl
        cases hroot.fits
      · rintro id rfl
        cases hroot.fits

end Grown

end Growing

end Parlance
