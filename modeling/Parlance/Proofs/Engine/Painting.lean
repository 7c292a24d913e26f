import Parlance.Proofs.Engine.Rows

/-! What the nodes of an output show. The nodes that belong to slots show the rows of these slots, and a repaint
takes what one output shows to what another one shows. It touches the nodes of the output and the entries of the
parent, and of those only the ones that the output put there or puts there now. Where other rows come later and
had put something on the same parent, it does not touch it. Texts, markers and markup get no children. -/

namespace Parlance

/-- The kind of the node that a row stands for, if it is not an element. -/
def Row.kind? : Row → Option NodeKind
  | .text value => some (.text value)
  | .raw markup => some (.raw markup)
  | .marker label => some (.marker label)
  | _ => none

/-- The kinds of the nodes that end a plain slot. -/
def Engine.endKinds (e : Engine) (lexem : Lexem) (slot : Slot) : List NodeKind :=
  (e.ownRows lexem slot).filterMap Row.kind?

variable {e : Engine} {p : NodeId} {h h₁ h' : Host}

variable (e h) in
/-- The nodes of slots at every depth, which show what the slots and their lexems say. -/
inductive Depicts : List Lexem → List Slot → List NodeId → Prop
  | nil : Depicts [] [] []
  | plain {lexem : Lexem} {slot : Slot} {lexems : List Lexem} {slots : List Slot} {nodes nodes' : List NodeId}
      (hslot : slot.Plain) (hends : slot.ends.map h.content = (e.endKinds lexem slot).map Content.new)
      (hinner : Depicts (lexemsOf slot.parts) (slotsOf slot.parts) nodes) (houter : Depicts lexems slots nodes') :
      Depicts (lexem :: lexems) (slot :: slots) (nodes ++ slot.ends ++ nodes')
  | element {lexem : Lexem} {n : NodeId} {kids : List Rendered} {lexems : List Lexem} {slots : List Slot}
      {nodes nodes' : List NodeId} (hkind : (h.content n).kind = .element (lexem.arg 0).toText)
      (hheld : ∀ π, (h.content n).held π = shownAt (e.rowsOfAll kids) π)
      (hinner : Depicts (lexemsOf kids) (slotsOf kids) nodes) (houter : Depicts lexems slots nodes') :
      Depicts (lexem :: lexems) (.element n kids :: slots) (n :: nodes ++ nodes')

/-- Nodes of a host that differ from each other. -/
structure Ground (h : Host) (nodes : List NodeId) : Prop where
  nodup : nodes.Nodup
  made : ∀ n ∈ nodes, n.index < h.count

variable {lexems lexems₁ lexems' : List Lexem} {slots slots₁ slots' : List Slot} {nodes nodes₁ nodes' : List NodeId}
variable {later : List Row}

namespace Depicts

theorem congr (hdepicts : Depicts e h lexems slots nodes) (hcontent : ∀ n ∈ nodes, h'.content n = h.content n) :
    Depicts e h' lexems slots nodes := by
  induction hdepicts with
  | nil => exact .nil
  | @plain lexem slot _ _ nodes nodes' hslot hends _ _ ihinner ihouter =>
      refine .plain hslot ?_ (ihinner fun n hn => hcontent n (by simp [hn]))
        (ihouter fun n hn => hcontent n (by simp [hn]))
      rw [← hends]
      exact List.map_congr_left fun n hn => hcontent n (by simp [hn])
  | @element _ n _ _ _ _ _ hkind hheld _ _ ihinner ihouter =>
      have hown := hcontent n (by simp)
      refine .element (by rw [hown]; exact hkind) (fun π => by rw [hown]; exact hheld π)
        (ihinner fun n hn => hcontent n (by simp [hn])) (ihouter fun n hn => hcontent n (by simp [hn]))

theorem append (hfirst : Depicts e h lexems slots nodes) (hsecond : Depicts e h lexems' slots' nodes') :
    Depicts e h (lexems ++ lexems') (slots ++ slots') (nodes ++ nodes') := by
  induction hfirst with
  | nil => exact hsecond
  | plain hslot hends hinner _ _ ih =>
      have hwhole := Depicts.plain hslot hends hinner ih
      simpa only [List.cons_append, List.append_assoc] using hwhole
  | element hkind hheld hinner _ _ ih =>
      rw [List.cons_append, List.cons_append, List.append_assoc]
      exact .element hkind hheld hinner ih

theorem split (hlength : lexems.length = slots.length)
    (hdepicts : Depicts e h (lexems ++ lexems') (slots ++ slots') nodes) :
    ∃ a c, nodes = a ++ c ∧ Depicts e h lexems slots a ∧ Depicts e h lexems' slots' c := by
  induction lexems generalizing slots nodes with
  | nil =>
      rw [List.length_nil, eq_comm, List.length_eq_zero_iff] at hlength
      subst hlength
      exact ⟨[], nodes, rfl, .nil, hdepicts⟩
  | cons lexem lexems ih =>
      cases slots with
      | nil => simp at hlength
      | cons slot slots =>
          cases hdepicts with
          | plain hslot hends hinner houter =>
              obtain ⟨a, c, rfl, ha, hc⟩ := ih (by simpa using hlength) houter
              exact ⟨_, c, (List.append_assoc _ _ _).symm, .plain hslot hends hinner ha, hc⟩
          | element hkind hheld hinner houter =>
              obtain ⟨a, c, rfl, ha, hc⟩ := ih (by simpa using hlength) houter
              exact ⟨_, c, (List.append_assoc _ _ _).symm, .element hkind hheld hinner ha, hc⟩

end Depicts

variable (e p) in
/-- What one output shows has come to be what another one shows, under rows that come later. -/
structure Repainted (later : List Row) (h : Host) (lexems : List Lexem) (slots : List Slot) (nodes : List NodeId)
    (h' : Host) (lexems' : List Lexem) (slots' : List Slot) (nodes' : List NodeId) : Prop where
  depicts : Depicts e h' lexems' slots' nodes'
  ground : Ground h' (p :: nodes')
  count : h.count ≤ h'.count
  fresh : ∀ n ∈ nodes', n ∈ nodes ∨ h.count ≤ n.index
  kind : (h'.content p).kind = (h.content p).kind
  content : ∀ n, n.index < h.count → n ≠ p → n ∉ nodes → h'.content n = h.content n
  still : ∀ π ∈ placesOf later, (h'.content p).held π = (h.content p).held π
  /-- What was put at a place and stays has to be there still. -/
  held : ∀ π ∉ placesOf later, ((shownAt (e.rowsOfSlots lexems slots) π).isSome →
      (shownAt (e.rowsOfSlots lexems' slots') π).isSome →
      (h.content p).held π = shownAt (e.rowsOfSlots lexems slots) π) →
    (h'.content p).held π = overlay (shownAt (e.rowsOfSlots lexems slots) π)
      (shownAt (e.rowsOfSlots lexems' slots') π) ((h.content p).held π)
  roomy : ∀ {k : Nat}, (k ≤ p.index → (h.content p).kind.isParent = true) → h.Roomy k → h'.Roomy k

variable (e p) in
/-- Whatever an output showed on a host, another one is shown instead on the next. -/
def Repaint (later : List Row) (h : Host) (lexems : List Lexem) (slots : List Slot) (h' : Host)
    (lexems' : List Lexem) (slots' : List Slot) : Prop :=
  ∀ nodes, Depicts e h lexems slots nodes → Ground h (p :: nodes) →
    ∃ nodes', Repainted e p later h lexems slots nodes h' lexems' slots' nodes'

/-- Rows put nothing where later ones put something before. -/
def Clear (rows later : List Row) : Prop := ∀ π ∈ placesOf rows, π ∉ placesOf later

/-- Where rows put something over which later ones put something before, later ones still do. -/
def Covered (rows later later' : List Row) : Prop := ∀ π ∈ placesOf rows, π ∈ placesOf later → π ∈ placesOf later'

section Overlay

variable {old old' mid new new' held : Option Scalar}

/-- What is put over a place that the one before leaves alone. -/
theorem overlay_covered {value : Scalar} (hcovers : new.isSome → new'.isSome) :
    overlay (some value) new' held = overlay ((some value).or old) (new'.or new) held := by
  cases new <;> cases new' <;> simp_all [overlay]

theorem overlay_over : overlay none new' (overlay old new held) = overlay old (new'.or new) held := by
  simp [overlay, Option.or_assoc]

theorem overlay_self : overlay old new old = new := by
  cases old <;> cases new <;> rfl

theorem overlay_put (hput : new.isSome) : overlay old new held = new := by
  cases new with
  | none => simp at hput
  | some value => rfl

theorem overlay_overlay (hkept : mid.isSome → new.isSome) :
    overlay mid new (overlay old mid held) = overlay old new held := by
  cases mid with
  | none => rfl
  | some value => rw [overlay_put (hkept rfl), overlay_put (hkept rfl)]

end Overlay

namespace Ground

theorem left (hground : Ground h (p :: (nodes ++ nodes'))) : Ground h (p :: nodes) :=
  ⟨hground.nodup.sublist (List.Sublist.cons_cons _ (List.sublist_append_left _ _)),
    fun n hn => hground.made n (by simp only [List.mem_cons, List.mem_append] at hn ⊢; grind)⟩

theorem right (hground : Ground h (p :: (nodes ++ nodes'))) : Ground h (p :: nodes') :=
  ⟨hground.nodup.sublist (List.Sublist.cons_cons _ (List.sublist_append_right _ _)),
    fun n hn => hground.made n (by simp only [List.mem_cons, List.mem_append] at hn ⊢; grind)⟩

theorem parent (hground : Ground h (p :: nodes)) : p.index < h.count := hground.made p List.mem_cons_self

theorem ne_parent (hground : Ground h (p :: nodes)) {n : NodeId} (hn : n ∈ nodes) : n ≠ p := fun heq =>
  (List.nodup_cons.mp hground.nodup).1 (heq ▸ hn)

theorem disjoint (hground : Ground h (p :: (nodes ++ nodes'))) {n : NodeId} (hn : n ∈ nodes) : n ∉ nodes' := by
  have hnodup := (List.nodup_cons.mp hground.nodup).2
  exact fun hn' => (List.nodup_append.mp hnodup).2.2 n hn n hn' rfl

theorem grow (hground : Ground h nodes) (hcount : h.count ≤ h'.count) : Ground h' nodes :=
  ⟨hground.nodup, fun n hn => Nat.lt_of_lt_of_le (hground.made n hn) hcount⟩

end Ground

namespace Repainted

/-- Nodes of the host that do not belong to an output stand for what they did. -/
theorem others (hpainted : Repainted e p later h lexems slots nodes h' lexems' slots' nodes') {others : List NodeId}
    (hothers : Ground h (p :: (nodes ++ others))) : ∀ n ∈ others, h'.content n = h.content n := fun n hn =>
  hpainted.content n (hothers.made n (by simp [hn])) (hothers.right.ne_parent hn) fun hmem =>
    hothers.disjoint hmem hn

end Repainted

namespace Repaint

theorem keep (hsame : Host.SameContents h h') : Repaint e p later h lexems slots h' lexems slots := by
  intro nodes hdepicts hground
  refine ⟨nodes, hdepicts.congr fun n _ => hsame.content n, hground.grow (Nat.le_of_eq hsame.count.symm),
    Nat.le_of_eq hsame.count.symm, fun _ hn => .inl hn, by rw [hsame.content], fun n _ _ _ => hsame.content n,
    fun π _ => by rw [hsame.content], fun π _ hagree => ?_, fun _ => hsame.roomy⟩
  rw [hsame.content]
  cases hshown : shownAt (e.rowsOfSlots lexems slots) π with
  | none => rfl
  | some value =>
      rw [hshown] at hagree
      rw [hagree rfl rfl]
      rfl

theorem refl : Repaint e p later h lexems slots h lexems slots := keep (.refl h)

/-- A repaint that touches nothing where later rows have put something. -/
theorem reserve (hold : Clear (e.rowsOfSlots lexems slots) later)
    (hnew : Clear (e.rowsOfSlots lexems' slots') later) (h₀ : Repaint e p [] h lexems slots h' lexems' slots') :
    Repaint e p later h lexems slots h' lexems' slots' := by
  intro nodes hdepicts hground
  obtain ⟨nodes', hpainted⟩ := h₀ nodes hdepicts hground
  refine ⟨nodes', hpainted.depicts, hpainted.ground, hpainted.count, hpainted.fresh, hpainted.kind,
    hpainted.content, fun π hπ => ?_, fun π _ => hpainted.held π (by simp [placesOf, entriesOf]), hpainted.roomy⟩
  have hold' : shownAt (e.rowsOfSlots lexems slots) π = none := shownAt_eq_none.mpr fun hmem => hold π hmem hπ
  have hnew' : shownAt (e.rowsOfSlots lexems' slots') π = none := shownAt_eq_none.mpr fun hmem => hnew π hmem hπ
  rw [hpainted.held π (by simp [placesOf, entriesOf]) (by simp [hold']), hold', hnew']
  rfl

/-- Outputs that stand one after the other are repainted one after the other. The first leaves alone what the
second has put on the parent. -/
theorem append {lexems₂ lexems₂' : List Lexem} {slots₂ slots₂' : List Slot}
    (hlength : lexems.length = slots.length) (hlength' : lexems'.length = slots'.length)
    (hcovered : Covered (e.rowsOfSlots lexems' slots') (e.rowsOfSlots lexems₂ slots₂) (e.rowsOfSlots lexems₂' slots₂'))
    (hfirst : Repaint e p (e.rowsOfSlots lexems₂ slots₂ ++ later) h lexems slots h₁ lexems' slots')
    (hsecond : Repaint e p later h₁ lexems₂ slots₂ h' lexems₂' slots₂') :
    Repaint e p later h (lexems ++ lexems₂) (slots ++ slots₂) h' (lexems' ++ lexems₂') (slots' ++ slots₂') := by
  intro nodes hdepicts hground
  obtain ⟨a, c, rfl, ha, hc⟩ := hdepicts.split hlength
  obtain ⟨a', hfirst⟩ := hfirst a ha hground.left
  have hcKept := hfirst.others hground
  obtain ⟨c', hsecond⟩ := hsecond c (hc.congr hcKept) (hground.right.grow hfirst.count)
  have haLate : ∀ n ∈ a', n ∉ c := fun n hn hmem => by
    rcases hfirst.fresh n hn with hold | hnew
    · exact hground.disjoint hold hmem
    · exact absurd (hground.made n (by simp [hmem])) (Nat.not_lt.mpr hnew)
  have hmade : ∀ n ∈ a', n.index < h₁.count := fun n hn => hfirst.ground.made n (List.mem_cons_of_mem _ hn)
  have haKept : ∀ n ∈ a', h'.content n = h₁.content n := fun n hn =>
    hsecond.content n (hmade n hn) (hfirst.ground.ne_parent hn) (haLate n hn)
  have hdisjoint : ∀ n ∈ a', n ∉ c' := fun n hn hmem => by
    rcases hsecond.fresh n hmem with hold | hnew
    · exact haLate n hn hold
    · exact absurd (hmade n hn) (Nat.not_lt.mpr hnew)
  refine ⟨a' ++ c', (hfirst.depicts.congr haKept).append hsecond.depicts, ⟨?_, fun n hn => ?_⟩,
    Nat.le_trans hfirst.count hsecond.count, fun n hn => ?_, hsecond.kind.trans hfirst.kind,
    fun n hn hne hnot => ?_, fun π hπ => ?_, fun π hπ hagree => ?_,
    fun hp hroomy => hsecond.roomy (hfirst.kind ▸ hp) (hfirst.roomy hp hroomy)⟩
  · have hnodup := hfirst.ground.nodup
    have hnodup' := hsecond.ground.nodup
    simp only [List.nodup_cons, List.nodup_append, List.mem_append] at hnodup hnodup' ⊢
    exact ⟨by grind, hnodup.2, hnodup'.2, fun n hn m hm heq => hdisjoint n hn (heq ▸ hm)⟩
  · have hfirstMade := (hfirst.ground.grow hsecond.count).made n
    have hsecondMade := hsecond.ground.made n
    simp only [List.mem_cons, List.mem_append] at hn hfirstMade hsecondMade
    grind
  · rcases List.mem_append.mp hn with hn | hn
    · exact (hfirst.fresh n hn).imp_left (List.mem_append_left _)
    · rcases hsecond.fresh n hn with hold | hnew
      · exact .inl (List.mem_append_right _ hold)
      · exact .inr (Nat.le_trans hfirst.count hnew)
  · rw [List.mem_append, not_or] at hnot
    rw [hsecond.content n (Nat.lt_of_lt_of_le hn hfirst.count) hne hnot.2, hfirst.content n hn hne hnot.1]
  · rw [hsecond.still π hπ, hfirst.still π (by simp [hπ])]
  · rw [Engine.rowsOfSlots_append hlength, Engine.rowsOfSlots_append hlength', shownAt_append,
      shownAt_append] at hagree ⊢
    by_cases hlater : π ∈ placesOf (e.rowsOfSlots lexems₂ slots₂)
    · -- the first one leaves the place to the second
      have hstill := hfirst.still π (by simp [hlater])
      obtain ⟨value, hvalue⟩ := shownAt_of_mem hlater
      have hcovers : (shownAt (e.rowsOfSlots lexems' slots') π).isSome →
          (shownAt (e.rowsOfSlots lexems₂' slots₂') π).isSome := fun hput =>
        shownAt_isSome.mpr (hcovered π (shownAt_isSome.mp hput) hlater)
      rw [hvalue] at hagree
      rw [hsecond.held π hπ (by rw [hstill, hvalue]; intro _ hnew; exact hagree rfl (by simp [hnew])), hvalue,
        hstill]
      exact overlay_covered hcovers
    · have hnone : shownAt (e.rowsOfSlots lexems₂ slots₂) π = none := shownAt_eq_none.mpr hlater
      rw [hnone, Option.none_or] at hagree ⊢
      rw [hsecond.held π hπ (by simp [hnone]), hnone,
        hfirst.held π (by simp [hlater, hπ]) fun hold hnew => hagree hold (by simp [hnew]), overlay_over]

/-- One repaint after another. What the first puts somewhere the second must not take away again. -/
theorem trans (hkeeps : ∀ π ∈ placesOf (e.rowsOfSlots lexems₁ slots₁), π ∈ placesOf (e.rowsOfSlots lexems' slots'))
    (hfirst : Repaint e p later h lexems slots h₁ lexems₁ slots₁)
    (hsecond : Repaint e p later h₁ lexems₁ slots₁ h' lexems' slots') :
    Repaint e p later h lexems slots h' lexems' slots' := by
  intro nodes hdepicts hground
  obtain ⟨nodes₁, hfirst⟩ := hfirst nodes hdepicts hground
  obtain ⟨nodes', hsecond⟩ := hsecond nodes₁ hfirst.depicts hfirst.ground
  refine ⟨nodes', hsecond.depicts, hsecond.ground, Nat.le_trans hfirst.count hsecond.count, fun n hn => ?_,
    hsecond.kind.trans hfirst.kind, fun n hn hne hnot => ?_,
    fun π hπ => by rw [hsecond.still π hπ, hfirst.still π hπ], fun π hπ hagree => ?_,
    fun hp hroomy => hsecond.roomy (hfirst.kind ▸ hp) (hfirst.roomy hp hroomy)⟩
  · rcases hsecond.fresh n hn with hmid | hnew
    · exact hfirst.fresh n hmid
    · exact .inr (Nat.le_trans hfirst.count hnew)
  · have hmid : n ∉ nodes₁ := fun hmid => (hfirst.fresh n hmid).elim hnot fun hnew =>
      absurd hn (Nat.not_lt.mpr hnew)
    rw [hsecond.content n (Nat.lt_of_lt_of_le hn hfirst.count) hne hmid, hfirst.content n hn hne hnot]
  · have hkept : (shownAt (e.rowsOfSlots lexems₁ slots₁) π).isSome →
        (shownAt (e.rowsOfSlots lexems' slots') π).isSome := fun hput =>
      shownAt_isSome.mpr (hkeeps π (shownAt_isSome.mp hput))
    have hheld := hfirst.held π hπ fun hold hput => hagree hold (hkept hput)
    rw [hsecond.held π hπ fun hput _ => by rw [hheld]; exact overlay_put hput, hheld, overlay_overlay hkept]

end Repaint

namespace Engine

/-- Whether the rows of a slot put nothing on the parent but what its parts put there. -/
def Silent (e : Engine) (lexem : Lexem) (slot : Slot) : Prop := entriesOf (e.ownRows lexem slot) = []

theorem shownAt_single {lexem : Lexem} {slot : Slot} (hslot : slot.Plain) (hsilent : e.Silent lexem slot)
    (hpaired : ∀ r ∈ slot.parts, r.Paired) (π : Place) :
    shownAt (e.rowsOfSlots [lexem] [slot]) π =
      shownAt (e.rowsOfSlots (lexemsOf slot.parts) (slotsOf slot.parts)) π := by
  have hnone : shownAt (e.ownRows lexem slot) π = none := by
    rw [shownAt, hsilent]
    rfl
  have hrows : e.rowsOfSlots [lexem] [slot] = e.slotRows lexem slot := by simp [rowsOfSlots]
  rw [hrows, slotRows_plain lexem hslot, shownAt_append, hnone, Option.none_or, rowsOfAll_eq hpaired]

theorem shownAt_element {lexem : Lexem} {n : NodeId} {kids : List Rendered} (π : Place) :
    shownAt (e.rowsOfSlots [lexem] [.element n kids]) π = none := by
  simp [rowsOfSlots, slotRows, shownAt, entriesOf, lastAt]

end Engine

variable (p) in
/-- Nodes have been made under a parent that show nothing but their kind. -/
structure Adds (h : Host) (ends : List NodeId) (kinds : List NodeKind) (h' : Host) : Prop where
  count : h.count ≤ h'.count
  content : ∀ n, n.index < h.count → h'.content n = h.content n
  ground : Ground h' ends
  fresh : ∀ n ∈ ends, h.count ≤ n.index
  ends : ends.map h'.content = kinds.map Content.new
  childless : ∀ n, n ≠ p → h.children n = [] → h'.children n = []

namespace Adds

theorem none (hsame : Host.SameContents h h') : Adds p h [] [] h' :=
  ⟨Nat.le_of_eq hsame.count.symm, fun n _ => hsame.content n, ⟨List.nodup_nil, by simp⟩, by simp, rfl,
    fun n _ => hsame.childless n⟩

theorem one {kind : NodeKind} (hmakes : Host.Makes kind p h h') : Adds p h [h.next] [kind] h' := by
  have hcount := hmakes.count
  refine ⟨by omega, fun n hn => ?_, ⟨by simp, ?_⟩, ?_, ?_, hmakes.childless⟩
  · rw [hmakes.content, if_neg]
    rintro rfl
    exact absurd hn (Nat.lt_irrefl _)
  · simp [hcount]
  · simp
  · simp [hmakes.content]

theorem trans {ends ends' : List NodeId} {kinds kinds' : List NodeKind} (hfirst : Adds p h ends kinds h₁)
    (hsecond : Adds p h₁ ends' kinds' h') : Adds p h (ends ++ ends') (kinds ++ kinds') h' := by
  refine ⟨Nat.le_trans hfirst.count hsecond.count, fun n hn => ?_, ⟨?_, fun n hn => ?_⟩, fun n hn => ?_, ?_,
    fun n hn hchildren => hsecond.childless n hn (hfirst.childless n hn hchildren)⟩
  · rw [hsecond.content n (Nat.lt_of_lt_of_le hn hfirst.count), hfirst.content n hn]
  · refine List.nodup_append.mpr ⟨hfirst.ground.nodup, hsecond.ground.nodup, ?_⟩
    rintro n hn _ hn' rfl
    exact absurd (hfirst.ground.made n hn) (Nat.not_lt.mpr (hsecond.fresh n hn'))
  · rcases List.mem_append.mp hn with hn | hn
    · exact (hfirst.ground.grow hsecond.count).made n hn
    · exact hsecond.ground.made n hn
  · rcases List.mem_append.mp hn with hn | hn
    · exact hfirst.fresh n hn
    · exact Nat.le_trans hfirst.count (hsecond.fresh n hn)
  · rw [List.map_append, List.map_append, ← hfirst.ends, ← hsecond.ends]
    congr 1
    exact List.map_congr_left fun n hn => hsecond.content n (hfirst.ground.made n hn)

/-- What has been made has no children yet. -/
theorem roomy {ends : List NodeId} {kinds : List NodeKind} {k : Nat} (hadds : Adds p h ends kinds h')
    (hmade : p.index < h.count) (hp : k ≤ p.index → (h.content p).kind.isParent = true) (hroomy : h.Roomy k) :
    h'.Roomy k := by
  intro n hk hn
  by_cases hlt : n.index < h.count
  · rw [hadds.content n hlt] at hn
    refine hadds.childless n ?_ (hroomy n hk hn)
    rintro rfl
    simp [hp hk] at hn
  · refine hadds.childless n ?_ (Host.children_of_count_le h (Nat.le_of_not_lt hlt))
    rintro rfl
    exact hlt hmade

end Adds

namespace Repaint

variable {lexem lexem' : Lexem} {slot slot' : Slot}

/-- A plain slot is repainted with its parts, and the nodes that end it are left alone. -/
theorem part (hslot : slot.Plain) (hslot' : slot'.Plain) (hends : slot'.ends = slot.ends)
    (hkinds : e.endKinds lexem' slot' = e.endKinds lexem slot) (hsilent : e.Silent lexem slot)
    (hsilent' : e.Silent lexem' slot') (hpaired : ∀ r ∈ slot.parts, r.Paired)
    (hpaired' : ∀ r ∈ slot'.parts, r.Paired)
    (hparts : Repaint e p later h (lexemsOf slot.parts) (slotsOf slot.parts) h' (lexemsOf slot'.parts)
      (slotsOf slot'.parts)) : Repaint e p later h [lexem] [slot] h' [lexem'] [slot'] := by
  intro nodes hdepicts hground
  cases hdepicts with
  | element => exact hslot.elim
  | @plain _ _ _ _ nodes outer _ hownKinds hinner houter =>
  cases houter
  rw [List.append_nil] at hground ⊢
  obtain ⟨nodes', hpainted⟩ := hparts nodes hinner hground.left
  have hkept := hpainted.others hground
  have hnotEnds : ∀ n ∈ nodes', n ∉ slot.ends := fun n hn hmem => by
    rcases hpainted.fresh n hn with hold | hnew
    · exact hground.disjoint hold hmem
    · exact absurd (hground.made n (by simp [hmem])) (Nat.not_lt.mpr hnew)
  have hwhole : Depicts e h' [lexem'] [slot'] (nodes' ++ slot'.ends ++ []) := by
    refine .plain hslot' ?_ hpainted.depicts .nil
    rw [hends, hkinds, ← hownKinds]
    exact List.map_congr_left hkept
  rw [List.append_nil, hends] at hwhole
  have hendsGround := hground.right.grow hpainted.count
  refine ⟨nodes' ++ slot.ends, hwhole, ⟨?_, fun n hn => ?_⟩, hpainted.count, fun n hn => ?_, hpainted.kind,
    fun n hn hne hnot => ?_, hpainted.still, fun π hπ hagree => ?_, hpainted.roomy⟩
  · have hnodup := hpainted.ground.nodup
    have hnodup' := hendsGround.nodup
    simp only [List.nodup_cons, List.nodup_append, List.mem_append] at hnodup hnodup' ⊢
    exact ⟨by grind, hnodup.2, hnodup'.2, fun n hn m hm heq => hnotEnds n hn (heq ▸ hm)⟩
  · have hmade := hpainted.ground.made n
    have hmade' := hendsGround.made n
    simp only [List.mem_cons, List.mem_append] at hn hmade hmade'
    grind
  · rcases List.mem_append.mp hn with hn | hn
    · exact (hpainted.fresh n hn).imp_left (List.mem_append_left _)
    · exact .inl (List.mem_append_right _ hn)
  · rw [List.mem_append, not_or] at hnot
    exact hpainted.content n hn hne hnot.1
  · rw [Engine.shownAt_single hslot hsilent hpaired, Engine.shownAt_single hslot' hsilent' hpaired'] at hagree ⊢
    exact hpainted.held π hπ hagree

/-- A plain slot whose parts have been put first, and then the nodes that end it. -/
theorem born (hslot : slot.Plain) (hsilent : e.Silent lexem slot) (hpaired : ∀ r ∈ slot.parts, r.Paired)
    (hparts : Repaint e p later h [] [] h₁ (lexemsOf slot.parts) (slotsOf slot.parts))
    (hadds : Adds p h₁ slot.ends (e.endKinds lexem slot) h') : Repaint e p later h [] [] h' [lexem] [slot] := by
  intro nodes hdepicts hground
  cases hdepicts
  obtain ⟨nodes, hpainted⟩ := hparts [] .nil hground
  have hold : ∀ n, n.index < h₁.count → h'.content n = h₁.content n := hadds.content
  have hmade : ∀ n ∈ p :: nodes, n.index < h₁.count := hpainted.ground.made
  have hwhole : Depicts e h' [lexem] [slot] (nodes ++ slot.ends ++ []) :=
    .plain hslot hadds.ends (hpainted.depicts.congr fun n hn => hold n (hmade n (by simp [hn]))) .nil
  rw [List.append_nil] at hwhole
  have hp := hold p (hmade p List.mem_cons_self)
  refine ⟨nodes ++ slot.ends, hwhole, ⟨?_, fun n hn => ?_⟩, Nat.le_trans hpainted.count hadds.count,
    fun n hn => ?_, by rw [hp, hpainted.kind], fun n hn hne hnot => ?_,
    fun π hπ => by rw [hp, hpainted.still π hπ], fun π hπ _ => ?_, fun hparent hroomy =>
      hadds.roomy (hmade p List.mem_cons_self) (hpainted.kind ▸ hparent) (hpainted.roomy hparent hroomy)⟩
  · have hnodup := hpainted.ground.nodup
    rw [← List.cons_append]
    refine List.nodup_append.mpr ⟨hnodup, hadds.ground.nodup, ?_⟩
    rintro n hn _ hn' rfl
    exact absurd (hmade n hn) (Nat.not_lt.mpr (hadds.fresh n hn'))
  · rw [← List.cons_append] at hn
    rcases List.mem_append.mp hn with hn | hn
    · exact Nat.lt_of_lt_of_le (hmade n hn) hadds.count
    · exact hadds.ground.made n hn
  · rcases List.mem_append.mp hn with hn | hn
    · exact hpainted.fresh n hn
    · exact .inr (Nat.le_trans hpainted.count (hadds.fresh n hn))
  · rw [hold n (Nat.lt_of_lt_of_le hn hpainted.count), hpainted.content n hn hne hnot]
  · rw [Engine.shownAt_single hslot hsilent hpaired, hp]
    exact hpainted.held π hπ (by simp [Engine.rowsOfSlots])

end Repaint

end Parlance
