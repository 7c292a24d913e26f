import Parlance.Proofs.Engine.Repainting

/-! The picture that an output gives. Nodes under a parent show the rows of an output if they are of the right kind,
hold the right entries, and show under them what the rows of an element say. Nodes that show the same rows, perhaps
on different hosts, look alike all the way down. -/

namespace Parlance

/-- Two nodes hold the same entries. Properties are compared as scalars are, and the order of classes does not
count. -/
structure Content.SameEntries (c c' : Content) : Prop where
  id : c.id = c'.id
  attributes : ∀ name, c.attributes.get? name = c'.attributes.get? name
  dataset : ∀ key, c.dataset.get? key = c'.dataset.get? key
  style : ∀ key, c.style.get? key = c'.style.get? key
  properties : ∀ name, Option.Rel (fun value value' => value.equals value' = true) (c.properties.get? name)
    (c'.properties.get? name)
  classes : ∀ name, name ∈ c.classes ↔ name ∈ c'.classes

/-- Two nodes of hosts look alike: they are of the same kind, hold the same entries, and their children look alike
one by one. -/
inductive Host.Alike (h h' : Host) : NodeId → NodeId → Prop
  | node {n n' : NodeId} (hkind : (h.content n).kind = (h'.content n').kind)
      (hentries : (h.content n).SameEntries (h'.content n'))
      (hchildren : List.Forall₂ (Alike h h') (h.children n) (h'.children n')) : Alike h h' n n'

namespace Scalar

theorem equals_canonical (a : Scalar) : a.canonical.equals a.canonical = a.equals a := by
  cases a with
  | number n =>
      have hnan : n.canonical.isNaN = n.isNaN := Number.isNaN_of_canonical (by
        have hzero : Number.zero.isZero = true := rfl
        by_cases hn : n.isZero = true <;> simp [Number.canonical, hn, hzero])
      simp [canonical, equals, Number.equals, hnan]
  | _ => rfl

end Scalar

/-- Contents that hold the same are the same up to equality of scalars, as all of these are equal to themselves. -/
theorem Content.SameEntries.of_held {c c' : Content} (hheld : ∀ π, c.held π = c'.held π)
    (hequals : ∀ π value, c.held π = some value → value.equals value = true) : c.SameEntries c' := by
  have hstr : ∀ {a a' : Option String}, a.map Scalar.str = a'.map Scalar.str → a = a' := fun h =>
    Option.map_injective (fun _ _ heq => Scalar.str.inj heq) h
  refine ⟨hstr (hheld .id), fun name => hstr (hheld (.attribute name)), fun key => hstr (hheld (.dataset key)),
    fun key => hstr (hheld (.style key)), fun name => ?_, fun name => ?_⟩
  · have hproperty := hheld (.property name)
    have hself := hequals (.property name)
    simp only [held] at hproperty hself
    cases hvalue : c.properties.get? name with
    | none =>
        rw [hvalue, Option.map_none, eq_comm, Option.map_eq_none_iff] at hproperty
        rw [hproperty]
        exact .none
    | some value =>
        rw [hvalue, Option.map_some, eq_comm, Option.map_eq_some_iff] at hproperty
        obtain ⟨value', hvalue', hcanonical⟩ := hproperty
        rw [hvalue']
        refine .some (Scalar.equals_of_canonical ?_ hcanonical.symm)
        rw [← Scalar.equals_canonical]
        exact hself _ (by rw [hvalue, Option.map_some])
  · have hclass := hheld (.cssClass name)
    simp only [held] at hclass
    by_cases hname : name ∈ c.classes <;> by_cases hname' : name ∈ c'.classes <;> simp_all

theorem mem_of_lastAt {entries : List (Place × Scalar)} {π : Place} {value : Scalar}
    (h : lastAt entries π = some value) : (π, value) ∈ entries := by
  induction entries with
  | nil => cases h
  | cons entry entries ih =>
      rw [lastAt, Option.or_eq_some_iff] at h
      rcases h with h | ⟨-, h⟩
      · exact List.mem_cons_of_mem _ (ih h)
      · split at h
        · next heq =>
          cases h
          rw [heq]
          exact List.mem_cons_self
        · cases h

/-- Nodes of a host show rows, to any depth. -/
inductive Shows (h : Host) : List NodeId → List Row → Prop
  | nil : Shows h [] []
  | entry {π : Place} {value : Scalar} {nodes : List NodeId} {rows : List Row} (houter : Shows h nodes rows) :
      Shows h nodes (.entry π value :: rows)
  | leaf {n : NodeId} {row : Row} {kind : NodeKind} {nodes : List NodeId} {rows : List Row}
      (hrow : row.kind? = some kind) (hcontent : h.content n = Content.new kind) (hchildren : h.children n = [])
      (houter : Shows h nodes rows) : Shows h (n :: nodes) (row :: rows)
  | element {n : NodeId} {tag : String} {inner : List Row} {nodes : List NodeId} {rows : List Row}
      (hkind : (h.content n).kind = .element tag) (hheld : ∀ π, (h.content n).held π = shownAt inner π)
      (hequals : ∀ π value, (h.content n).held π = some value → value.equals value = true)
      (hinner : Shows h (h.children n) inner) (houter : Shows h nodes rows) :
      Shows h (n :: nodes) (.element tag inner :: rows)

namespace Shows

variable {h h' : Host} {nodes nodes' : List NodeId} {rows rows' : List Row}

theorem append (hfirst : Shows h nodes rows) (hsecond : Shows h nodes' rows') :
    Shows h (nodes ++ nodes') (rows ++ rows') := by
  induction hfirst with
  | nil => exact hsecond
  | entry _ ih => exact .entry ih
  | leaf hrow hcontent hchildren _ ih => exact .leaf hrow hcontent hchildren ih
  | element hkind hheld hequals hinner _ _ ih => exact .element hkind hheld hequals hinner ih

/-- Nodes with nothing in them and nothing under them. -/
theorem leaves (hrows : ∀ tag inner, Row.element tag inner ∉ rows)
    (hends : nodes.map h.content = (rows.filterMap Row.kind?).map Content.new)
    (hchildren : ∀ n ∈ nodes, (h.content n).kind.isParent = false → h.children n = []) : Shows h nodes rows := by
  induction rows generalizing nodes with
  | nil =>
      rw [List.filterMap_nil, List.map_nil, List.map_eq_nil_iff] at hends
      subst hends
      exact .nil
  | cons row rows ih =>
      have hrest : ∀ tag inner, Row.element tag inner ∉ rows := fun tag inner hmem =>
        hrows tag inner (List.mem_cons_of_mem _ hmem)
      cases hrow : row.kind? with
      | none =>
          rw [List.filterMap_cons_none hrow] at hends
          cases row with
          | entry => exact .entry (ih hrest hends hchildren)
          | element tag inner => exact absurd List.mem_cons_self (hrows tag inner)
          | _ => cases hrow
      | some kind =>
          rw [List.filterMap_cons_some hrow, List.map_cons] at hends
          cases nodes with
          | nil => cases hends
          | cons n nodes =>
              rw [List.map_cons, List.cons.injEq] at hends
              have hleaf : kind.isParent = false := by
                cases row <;> cases hrow <;> rfl
              refine .leaf hrow hends.1 (hchildren n List.mem_cons_self (by rw [hends.1]; exact hleaf))
                (ih hrest hends.2 fun m hm => hchildren m (List.mem_cons_of_mem _ hm))

/-- Nodes that show the same rows look alike. -/
theorem alike (hshows : Shows h nodes rows) (hshows' : Shows h' nodes' rows) :
    List.Forall₂ (Host.Alike h h') nodes nodes' := by
  induction hshows generalizing nodes' with
  | nil =>
      cases hshows'
      exact .nil
  | entry _ ih =>
      cases hshows' with
      | entry houter => exact ih houter
      | leaf hrow => cases hrow
  | leaf hrow hcontent hchildren _ ih =>
      cases hshows' with
      | entry => cases hrow
      | element => cases hrow
      | leaf hrow' hcontent' hchildren' houter =>
      rw [hrow] at hrow'
      cases hrow'
      refine .cons (.node (by rw [hcontent, hcontent']) ?_ (by rw [hchildren, hchildren']; exact .nil)) (ih houter)
      rw [hcontent, hcontent']
      exact .of_held (fun _ => rfl) fun π value hvalue => by simp [Content.held_new] at hvalue
  | element hkind hheld hequals _ _ ihinner ihouter =>
      cases hshows' with
      | leaf hrow => cases hrow
      | element hkind' hheld' _ hinner houter =>
      exact .cons (.node (hkind.trans hkind'.symm)
        (.of_held (fun π => (hheld π).trans (hheld' π).symm) hequals) (ihinner hinner)) (ihouter houter)

end Shows

section Grown

variable {ω : Type} {b : Behaviour ω} {P : Purity b} {e : Engine} {w : ω} {n k : Nat} {h : Host}
variable {t : Array Instance} {p : NodeId} {lexems : List Lexem} {slots : List Slot} {tops owned nodes : List NodeId}

/-- What a known word puts equals itself, so it is not NaN. -/
theorem Similarity.writes_equals {R : Arg → Arg → Prop} (hR : Similarity R) {l : Lexem} (hl : l.Alike R l)
    {i : Instruction} {ws : List Write} (hwrites : l.writes i = some ws) :
    ∀ write ∈ ws, write.value.equals write.value = true := by
  have htext : ∀ text : String, (Scalar.str text).equals (.str text) = true := fun text => by simp [Scalar.equals]
  cases i with
  | attr | data | style =>
      cases hname : l.stringArg 0 with
      | error => rw [Lexem.writes, hname] at hwrites; cases hwrites
      | ok name =>
      rw [Lexem.writes, hname] at hwrites
      cases hwrites
      simp [Write.value, htext]
  | prop =>
      unfold Lexem.writes at hwrites
      cases hname : l.stringArg 0 with
      | error => rw [hname] at hwrites; cases hwrites
      | ok name =>
      cases hvalue : l.scalarArg 1 with
      | error => rw [hname, hvalue] at hwrites; cases hwrites
      | ok value =>
      rw [hname, hvalue] at hwrites
      cases hwrites
      have hscalar := Lexem.scalarArg_eq_ok.mp hvalue
      obtain ⟨value', hvalue', hequals, -⟩ := (hR.resembles (hR.conformity.arg hl 1)).scalar_equals hscalar
      rw [hscalar, Option.some.injEq] at hvalue'
      subst hvalue'
      simpa [Write.value, Scalar.equals_canonical] using hequals
  | cssClass | classes | id =>
      cases hwrites
      simp [Write.value, Scalar.equals]
  | _ => cases hwrites

/-- Nothing that known lexems put is out of order, as NaN would be. -/
theorem Grown.equals (hgrown : Grown P e w n lexems slots) :
    ∀ entry ∈ entriesOf (e.rowsOfSlots lexems slots), entry.2.equals entry.2 = true := by
  induction hgrown with
  | nil => simp [Engine.rowsOfSlots, entriesOf]
  | @cons _ lexem slot lexems slots hroot _ _ ihinner ihouter =>
      intro entry hentry
      rw [Engine.rowsOfSlots, entriesOf_append, List.mem_append] at hentry
      refine hentry.elim (fun hentry => ?_) (ihouter entry)
      by_cases hslot : slot = .attribute
      · subst hslot
        rw [Engine.slotRows, entriesOf_map] at hentry
        cases hroot.fits with
        | «attribute» _ hword hwrites =>
        rw [Engine.entries_eq hword hwrites, List.mem_map] at hentry
        obtain ⟨write, hwrite, rfl⟩ := hentry
        exact (P.likeness w).writes_equals hroot.known hwrites write hwrite
      by_cases hplain : slot.Plain
      · rw [Engine.slotRows_plain lexem hplain, entriesOf_append, Engine.rowsOfAll_eq hroot.paired,
          Engine.ownRows_silent hslot, List.append_nil] at hentry
        exact ihinner entry hentry
      · cases hroot.fits with
        | element => simp [Engine.slotRows, entriesOf] at hentry
        | _ => exact absurd trivial hplain

theorem Grown.shown_equals (hgrown : Grown P e w n lexems slots) {π : Place} {value : Scalar}
    (hvalue : shownAt (e.rowsOfSlots lexems slots) π = some value) : value.equals value = true :=
  hgrown.equals _ (mem_of_lastAt hvalue)

/-- Slots that stand under a parent and depict what they say show their rows. -/
theorem Placed.shows (hgrown : Grown P e w n lexems slots) (hroomy : h.Roomy k)
    (hplaced : Placed h t p slots tops owned) (hdepicts : Depicts e h lexems slots nodes)
    (hlate : ∀ m ∈ nodes, k ≤ m.index) : Shows h tops (e.rowsOfSlots lexems slots) := by
  induction hgrown generalizing p tops owned nodes with
  | nil =>
      cases hplaced
      simpa [Engine.rowsOfSlots] using .nil
  | @cons _ lexem slot lexems slots hroot hinner _ ihinner ihouter =>
      rw [Engine.rowsOfSlots]
      cases hdepicts with
      | plain hslot hends hdepictsInner hdepictsOuter =>
          cases hplaced with
          | element => exact hslot.elim
          | component => exact hslot.elim
          | plain _ hplacedInner hplacedOuter =>
          rw [Engine.slotRows_plain lexem hslot, Engine.rowsOfAll_eq hroot.paired]
          have hparts := ihinner hplacedInner hdepictsInner fun m hm => hlate m (by simp [hm])
          have hrest := ihouter hplacedOuter hdepictsOuter fun m hm => hlate m (by simp [hm])
          refine (hparts.append (.leaves ?_ hends fun m hm => ?_)).append hrest
          · intro tag inner
            cases slot <;> simp [Engine.ownRows]
          · exact hroomy m (hlate m (by simp [hm]))
      | @element _ _ kids _ _ _ _ hkind hheld hdepictsInner hdepictsOuter =>
          cases hplaced with
          | plain hslot => exact hslot.elim
          | element hchildren _ _ hplacedInner hplacedOuter =>
          have hkids := ihinner hplacedInner hdepictsInner fun m hm => hlate m (by simp [hm])
          have hrest := ihouter hplacedOuter hdepictsOuter fun m hm => hlate m (by simp [hm])
          have hkidsRows : e.rowsOfAll kids = e.rowsOfSlots (lexemsOf kids) (slotsOf kids) :=
            Engine.rowsOfAll_eq hroot.paired
          rw [Engine.slotRows, hkidsRows]
          rw [hkidsRows] at hheld
          refine .element hkind hheld (fun π value hvalue => ?_) (hchildren ▸ hkids) hrest
          rw [hheld] at hvalue
          exact hinner.shown_equals hvalue

end Grown

end Parlance
