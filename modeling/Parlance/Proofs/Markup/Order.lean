import Mathlib.Data.List.Flatten
import Mathlib.Data.List.Pairwise
import Parlance.Host.Tree
import Parlance.Proofs.Host.Accord

/-! The order of the document. The walk with a stack ends, and lists everything under a node in the order in which the
writer of markup comes to it: each node before what is under it, and what is under one child before the next child. The
writer leaves out what stands under a node that is not an element, and the walk does not; so a text under a text is part
of the text of a node, but of no markup. -/

namespace Parlance.Host

/-- One turn of the walk: the last node of the stack is listed, and its children are put on the stack in its place, the
first of them last. There is no turn where the stack is empty. -/
def turn? (h : Host) : List NodeId × List NodeId → Option (List NodeId × List NodeId)
  | (listed, stack) => stack.getLast?.map fun n => (listed ++ [n], stack.dropLast ++ (h.children n).reverse)

/-- From one state of the walk to another, by any number of turns. -/
def Turns (h : Host) : List NodeId × List NodeId → List NodeId × List NodeId → Prop :=
  Relation.ReflTransGen fun state state' => h.turn? state = some state'

/-- One node comes before another in the document: the other stands below it, or the two stand at or below two children
of one node, in the order of these children. -/
def Precedes (h : Host) (m m' : NodeId) : Prop :=
  h.Below m m' ∨ ∃ p c c', [c, c'].Sublist (h.children p) ∧ h.AtOrBelow c m ∧ h.AtOrBelow c' m'

/-- The attached nodes other than the root that have some property, each of them once and in the order of the
document. -/
structure Finds (h : Host) (P : NodeId → Prop) (ns : List NodeId) : Prop where
  mem : ∀ m, m ∈ ns ↔ m ≠ root ∧ h.isAttached m = true ∧ P m
  nodup : ns.Nodup
  order : ns.Pairwise h.Precedes

/-- The text of a node that is a text. -/
def text? (h : Host) (n : NodeId) : Option String :=
  match (h.content n).kind with
  | .text value => some value
  | _ => none

def isElement (h : Host) (n : NodeId) : Bool :=
  match (h.content n).kind with
  | .element _ => true
  | _ => false

/-- The children that the markup of a node shows. -/
def shownChildren (h : Host) (n : NodeId) : List NodeId := if h.isElement n then h.children n else []

/-- Nothing but elements stands between two nodes, so what is written of everything under the first one shows the
second. -/
def Exposes (h : Host) (n m : NodeId) : Prop := ∀ q, h.Below n q → h.Below q m → h.isElement q = true

/-- The writer comes to a node, and leaves it after what is under it. -/
inductive Visit where
  | enter (n : NodeId)
  | leave (n : NodeId)

namespace Visit

/-- What is written on a visit: of an element a start tag and then an end tag, of anything else all at once. -/
def text (h : Host) (markers : Bool) : Visit → String
  | .enter n =>
      match (h.content n).kind with
      | .element tag => "<" ++ tag ++ String.join ((Markup.shown (h.content n)).map Markup.attributeText) ++ ">"
      | _ => Markup.write markers (.node (h.content n) [])
  | .leave n =>
      match (h.content n).kind with
      | .element tag => "</" ++ tag ++ ">"
      | _ => ""

def entered? : Visit → Option NodeId
  | .enter n => some n
  | .leave _ => none

end Visit

/-- The nodes to which the writer comes, one after the other. -/
def entered (vs : List Visit) : List NodeId := vs.filterMap Visit.entered?

/-- The visits of the writer to some nodes: it comes to each of them, then to the children that it shows, and leaves
it. -/
inductive Writes (h : Host) : List NodeId → List Visit → Prop
  | done : Writes h [] []
  | node {n : NodeId} {ns : List NodeId} {vs ws : List Visit} (hinner : Writes h (h.shownChildren n) vs)
      (hrest : Writes h ns ws) : Writes h (n :: ns) (.enter n :: vs ++ .leave n :: ws)

variable {h : Host} {n m m' p q c c' d d' : NodeId} {ns : List NodeId} {vs ws : List Visit}

section Texts

theorem ownText_eq (h : Host) (n : NodeId) : h.ownText n = (h.text? n).getD "" := by
  rw [ownText, text?]
  cases (h.content n).kind <;> rfl

theorem join_ownText (ns : List NodeId) : String.join (ns.map h.ownText) = String.join (ns.filterMap h.text?) := by
  induction ns with
  | nil => rfl
  | cons n ns ih =>
      rw [List.map_cons, String.join_cons, ih, ownText_eq, List.filterMap_cons]
      cases h.text? n with
      | none => exact String.empty_append
      | some value => exact String.join_cons.symm

end Texts

section Walking

/-- Of two nodes in a list without repetition only one comes first. -/
theorem not_sublist_swap (hnodup : ns.Nodup) (hsub : [m, m'].Sublist ns) : ¬ [m', m].Sublist ns := by
  induction ns with
  | nil => simp
  | cons n ns ih => grind

namespace Forest

variable (hforest : Forest h)
include hforest

/-- The walk with a stack goes on until everything on the stack and under it is listed, and then it ends. -/
theorem turns (listed stack : List NodeId) :
    h.Turns (listed, stack.reverse) (listed ++ stack.flatMap fun c => c :: h.under h.count c, []) := by
  -- each turn lists the first of the nodes that are still to be listed
  generalize hrest : (stack.flatMap fun c => c :: h.under h.count c) = rest
  induction rest generalizing listed stack with
  | nil =>
      cases stack with
      | nil =>
          rw [List.append_nil]
          exact .refl
      | cons n stack => cases hrest
  | cons n rest ih =>
      cases stack with
      | nil => cases hrest
      | cons n' stack =>
          rw [hforest.flatMap_under_cons, List.cons.injEq] at hrest
          obtain ⟨rfl, hrest⟩ := hrest
          have hturn : h.turn? (listed, (n' :: stack).reverse) =
              some (listed ++ [n'], (h.children n' ++ stack).reverse) := by
            simp [turn?]
          have hgo := ih (listed ++ [n']) (h.children n' ++ stack) hrest
          rw [List.append_assoc, List.singleton_append] at hgo
          exact .head hturn hgo

/-- The walk from the children of a node ends with the descendants. -/
theorem turns_descendants (n : NodeId) : h.Turns ([], (h.children n).reverse) (h.descendants n, []) := by
  have hturns := hforest.turns [] (h.children n)
  rwa [List.nil_append, ← hforest.under_count, ← hforest.descendants_eq] at hturns

theorem nodup_descendants (n : NodeId) : (h.descendants n).Nodup := by
  rw [hforest.descendants_eq]
  exact hforest.nodup_under _ n

theorem siblings_of_sublist (hsub : [c, c'].Sublist (h.children p)) :
    c ≠ c' ∧ h.parent c = some p ∧ h.parent c' = some p := by
  have hne : c ≠ c' := by simpa using hsub.nodup (hforest.nodup p)
  exact ⟨hne, (hforest.links p c).mp (hsub.subset (by simp)), (hforest.links p c').mp (hsub.subset (by simp))⟩

/-- If one of two siblings stands above a child of a node, then nothing at or below the other stands at or below a child
of that node. -/
theorem not_below_sibling (hne : c ≠ c') (hc : h.parent c = some p) (hc' : h.parent c' = some p)
    (hd : h.parent d = some q) (hd' : h.parent d' = some q) (hbelow : h.Below c d') (hm : h.AtOrBelow c' m) :
    ¬ h.AtOrBelow d m := by
  intro hm'
  have hcd : h.AtOrBelow c d := (hbelow.parent hd').tail hd
  exact hne (hforest.siblings_apart hc hc' (hcd.trans hm') hm)

/-- What stands at or below the first of two siblings does not also come after what stands at or below the second. -/
theorem not_swapped (hsub : [c, c'].Sublist (h.children p)) (hm : h.AtOrBelow c m) (hm' : h.AtOrBelow c' m')
    (hsub' : [d, d'].Sublist (h.children q)) (hd : h.AtOrBelow d m') : ¬ h.AtOrBelow d' m := by
  intro hd'
  obtain ⟨hne, hc, hc'⟩ := hforest.siblings_of_sublist hsub
  obtain ⟨hne', hdq, hdq'⟩ := hforest.siblings_of_sublist hsub'
  have heq : c = d' := by
    rcases above_total hm hd' with hle | hle
    · refine (atOrBelow_iff.mp hle).elim Eq.symm fun hbelow => ?_
      exact absurd hd (hforest.not_below_sibling hne hc hc' hdq hdq' hbelow hm')
    · refine (atOrBelow_iff.mp hle).elim id fun hbelow => ?_
      exact absurd hm' (hforest.not_below_sibling hne'.symm hdq' hdq hc' hc hbelow hd)
  subst heq
  obtain rfl : p = q := Option.some.inj (hc.symm.trans hdq')
  obtain rfl := hforest.siblings_apart hdq hc' hd hm'
  exact not_sublist_swap (hforest.nodup p) hsub hsub'

/-- No node comes both before and after another. -/
theorem not_precedes (hfirst : h.Precedes m m') : ¬ h.Precedes m' m := by
  rintro (hbelow' | ⟨q, d, d', hsub', hd, hd'⟩)
  · rcases hfirst with hbelow | ⟨p, c, c', hsub, hc, hc'⟩
    · exact hforest.acyclic m (hbelow.trans hbelow')
    · obtain ⟨hne, hcp, hcp'⟩ := hforest.siblings_of_sublist hsub
      exact hne (hforest.siblings_apart hcp hcp' hc (hc'.trans hbelow'.to_reflTransGen))
  · rcases hfirst with hbelow | ⟨p, c, c', hsub, hc, hc'⟩
    · obtain ⟨hne, hdq, hdq'⟩ := hforest.siblings_of_sublist hsub'
      exact hne (hforest.siblings_apart hdq hdq' hd (hd'.trans hbelow.to_reflTransGen))
    · exact hforest.not_swapped hsub hc hc' hsub' hd hd'

theorem precedes_under (depth : Nat) (n : NodeId) : (h.under depth n).Pairwise h.Precedes := by
  induction depth generalizing n with
  | zero => exact .nil
  | succ depth ih =>
      rw [under, List.pairwise_flatMap]
      refine ⟨fun c _ => List.pairwise_cons.mpr ⟨fun m hm => .inl (hforest.below_of_mem_under hm), ih c⟩, ?_⟩
      refine List.pairwise_iff_forall_sublist.mpr fun {c c'} hsub m hm m' hm' => ?_
      exact .inr ⟨n, c, c', hsub, hforest.atOrBelow_of_mem_under hm, hforest.atOrBelow_of_mem_under hm'⟩

theorem precedes_descendants (n : NodeId) : (h.descendants n).Pairwise h.Precedes := by
  rw [hforest.descendants_eq]
  exact hforest.precedes_under _ n

/-- One node is listed before another exactly if it comes before it in the document. -/
theorem sublist_descendants_iff :
    [m, m'].Sublist (h.descendants n) ↔ h.Below n m ∧ h.Below n m' ∧ h.Precedes m m' := by
  have horder := hforest.precedes_descendants n
  constructor
  · intro hsub
    exact ⟨hforest.mem_descendants.mp (hsub.subset (by simp)), hforest.mem_descendants.mp (hsub.subset (by simp)),
      List.pairwise_iff_forall_sublist.mp horder hsub⟩
  · rintro ⟨hm, hm', hprecedes⟩
    have hne : m ≠ m' := by
      rintro rfl
      exact hforest.not_precedes hprecedes hprecedes
    -- of two nodes that are listed one is listed first, and it is not the second one
    let R := fun a b => [a, b].Sublist (h.descendants n) ∨ [b, a].Sublist (h.descendants n)
    have : Std.Symm R := ⟨fun _ _ => Or.symm⟩
    have hall : (h.descendants n).Pairwise R := List.pairwise_iff_forall_sublist.mpr fun hsub => .inl hsub
    rcases hall.forall (hforest.mem_descendants.mpr hm) (hforest.mem_descendants.mpr hm') hne with hsub | hsub
    · exact hsub
    · exact absurd (List.pairwise_iff_forall_sublist.mp horder hsub) (hforest.not_precedes hprecedes)

/-- What is kept of the descendants of the root is what is found. -/
theorem finds_filter (P : NodeId → Prop) [DecidablePred P] : h.Finds P ((h.descendants root).filter (P ·)) where
  mem m := by
    have hroot : root ∉ h.descendants root := fun hmem => hforest.acyclic root (hforest.mem_descendants.mp hmem)
    rw [List.mem_filter, decide_eq_true_iff, hforest.isAttached_iff_mem]
    constructor
    · rintro ⟨hmem, hm⟩
      exact ⟨fun heq => hroot (heq ▸ hmem), .inr hmem, hm⟩
    · rintro ⟨hne, heq | hmem, hm⟩
      · exact absurd heq hne
      · exact ⟨hmem, hm⟩
  nodup := (hforest.nodup_descendants root).filter _
  order := (hforest.precedes_descendants root).filter _

end Forest

end Walking

section Writing

namespace Writes

/-- The writer comes to nodes in one way only. -/
theorem unique (hvs : h.Writes ns vs) (hws : h.Writes ns ws) : vs = ws := by
  induction hvs generalizing ws with
  | done =>
      cases hws
      rfl
  | node _ _ ihinner ihrest =>
      cases hws with
      | node hinner hrest => rw [ihinner hinner, ihrest hrest]

theorem eq_nil (hvs : h.Writes [] vs) : vs = [] := hvs.unique .done

end Writes

theorem entered_node (n : NodeId) (vs ws : List Visit) :
    entered (.enter n :: vs ++ .leave n :: ws) = n :: (entered vs ++ entered ws) := by
  change n :: (vs ++ .leave n :: ws).filterMap Visit.entered? = _
  rw [List.filterMap_append]
  rfl

theorem mem_shownChildren : c ∈ h.shownChildren n ↔ h.isElement n = true ∧ c ∈ h.children n := by
  rw [shownChildren]
  split <;> simp_all

theorem shownChildren_sublist (h : Host) (n : NodeId) : (h.shownChildren n).Sublist (h.children n) := by
  rw [shownChildren]
  split
  · exact .refl _
  · exact List.nil_sublist _

/-- The markup of what a node shows stands between what is written where the writer comes to it and where it leaves
it. -/
theorem write_node (h : Host) (markers : Bool) (n : NodeId) (ts : List Tree) :
    Markup.write markers (.node (h.content n) ts) = Visit.text h markers (.enter n) ++
      (if h.isElement n then Markup.writeAll markers ts else "") ++ Visit.text h markers (.leave n) := by
  cases hkind : (h.content n).kind with
  | element tag => simp [Markup.write, Visit.text, isElement, hkind, String.append_assoc]
  | _ => simp [Markup.write, Visit.text, isElement, hkind]

namespace Forest

variable (hforest : Forest h)
include hforest

/-- What is shown under a node is each of its children, and what is shown under those that are elements. -/
theorem exposes_iff : h.Below n m ∧ h.Exposes n m ↔
    ∃ c ∈ h.children n, m = c ∨ h.isElement c = true ∧ h.Below c m ∧ h.Exposes c m := by
  constructor
  · rintro ⟨hbelow, hexposes⟩
    obtain ⟨c, hc, hle⟩ := Relation.TransGen.head'_iff.mp hbelow
    refine ⟨c, (hforest.links n c).mpr hc, (atOrBelow_iff.mp hle).imp_right fun hcm => ?_⟩
    exact ⟨hexposes c (.single hc) hcm, hcm, fun q hcq => hexposes q (.head hc hcq)⟩
  · rintro ⟨c, hc, heq⟩
    have hlink := (hforest.links n c).mp hc
    rcases heq with rfl | ⟨helement, hcm, hexposes⟩
    · exact ⟨.single hlink, fun q hq hqm => absurd hqm (hforest.not_between hlink hq)⟩
    · refine ⟨.head hlink hcm, fun q hq hqm => ?_⟩
      -- what stands between is the child itself, or stands below it
      rcases above_total hcm.to_reflTransGen hqm.to_reflTransGen with hle | hle
      · rcases atOrBelow_iff.mp hle with rfl | hcq
        · exact helement
        · exact hexposes q hcq hqm
      · rcases atOrBelow_iff.mp hle with rfl | hqc
        · exact helement
        · exact absurd hqc (hforest.not_between hlink hq)

/-- The writer ends. -/
theorem exists_writes (ns : List NodeId) : ∃ vs, h.Writes ns vs := by
  -- fewer nodes stand below the children than below their parent
  have hdeep : ∀ k ns, (∀ c ∈ ns, h.rank c < k) → ∃ vs, h.Writes ns vs := by
    intro k
    induction k with
    | zero =>
        intro ns hns
        rw [List.eq_nil_iff_forall_not_mem.mpr fun c hc => Nat.not_lt_zero _ (hns c hc)]
        exact ⟨[], .done⟩
    | succ k ih =>
        intro ns hns
        induction ns with
        | nil => exact ⟨[], .done⟩
        | cons n ns ihrest =>
            obtain ⟨vs, hinner⟩ := ih (h.shownChildren n) fun c hc => by
              have hlt := hforest.rank_child (mem_shownChildren.mp hc).2
              have hn := hns n List.mem_cons_self
              omega
            obtain ⟨ws, hrest⟩ := ihrest fun c hc => hns c (List.mem_cons_of_mem n hc)
            exact ⟨_, .node hinner hrest⟩
  exact hdeep (h.count + 1) ns fun c _ => Nat.lt_succ_of_le (h.rank_le c)

theorem entered_sublist_flatMap (hwrites : h.Writes ns vs) :
    (entered vs).Sublist (ns.flatMap fun c => c :: h.under h.count c) := by
  induction hwrites with
  | done => exact .refl _
  | @node n ns vs ws _ _ ihinner ihrest =>
      have hinner : (entered vs).Sublist (h.under h.count n) := by
        rw [hforest.under_count]
        exact ihinner.trans ((h.shownChildren_sublist n).flatMap _)
      rw [entered_node, List.flatMap_cons]
      exact (hinner.append ihrest).cons_cons n

/-- The writer comes to nodes in the order of the walk. -/
theorem entered_sublist (hwrites : h.Writes (h.children n) vs) : (entered vs).Sublist (h.descendants n) := by
  rw [hforest.descendants_eq, hforest.under_count]
  exact hforest.entered_sublist_flatMap hwrites

theorem mem_entered (hwrites : h.Writes ns vs) :
    m ∈ entered vs ↔ ∃ c ∈ ns, m = c ∨ h.isElement c = true ∧ h.Below c m ∧ h.Exposes c m := by
  induction hwrites with
  | done => simp [entered]
  | @node n ns vs ws _ _ ihinner ihrest =>
      have hinner : m ∈ entered vs ↔ h.isElement n = true ∧ h.Below n m ∧ h.Exposes n m := by
        rw [ihinner, hforest.exposes_iff]
        simp only [mem_shownChildren, and_assoc, exists_and_left]
      rw [entered_node, List.mem_cons, List.mem_append, hinner, ihrest]
      simp [or_assoc]

/-- The writer comes to what stands under a node with nothing but elements in between. -/
theorem mem_entered_children (hwrites : h.Writes (h.children n) vs) :
    m ∈ entered vs ↔ h.Below n m ∧ h.Exposes n m := by
  rw [hforest.mem_entered hwrites, hforest.exposes_iff]

/-- What is written on the visits is the markup. -/
theorem join_text (markers : Bool) (hwrites : h.Writes ns vs) {depth : Nat} (hdepth : ∀ c ∈ ns, h.rank c ≤ depth) :
    String.join (vs.map (Visit.text h markers)) = Markup.writeAll markers (ns.map (h.treeTo depth)) := by
  induction hwrites generalizing depth with
  | done => rfl
  | @node n ns vs ws hinner _ ihinner ihrest =>
      have hn := hdepth n List.mem_cons_self
      obtain ⟨ts, htree, hvs⟩ : ∃ ts, h.treeTo depth n = .node (h.content n) ts ∧
          String.join (vs.map (Visit.text h markers)) = if h.isElement n then Markup.writeAll markers ts else "" := by
        cases depth with
        | zero =>
            have hnone : h.shownChildren n = [] := by rw [shownChildren, hforest.children_of_rank hn, ite_self]
            rw [hnone] at hinner
            refine ⟨[], rfl, ?_⟩
            rw [hinner.eq_nil]
            split <;> rfl
        | succ depth =>
            refine ⟨_, rfl, ?_⟩
            rw [ihinner fun c hc => ?_, shownChildren]
            · split <;> rfl
            · have hlt := hforest.rank_child (mem_shownChildren.mp hc).2
              omega
      have hrest := ihrest fun c hc => hdepth c (List.mem_cons_of_mem n hc)
      rw [List.map_append, List.map_cons, List.map_cons, String.join_append, String.join_cons, String.join_cons, hvs,
        hrest, List.map_cons, Markup.writeAll, htree, write_node]
      simp only [String.append_assoc]

/-- The markup of everything under a node is what is written on the visits to its children. -/
theorem writeAll_tree (markers : Bool) (hwrites : h.Writes (h.children n) vs) :
    Markup.writeAll markers (h.tree n).children = String.join (vs.map (Visit.text h markers)) := by
  rw [tree]
  change Markup.writeAll markers (h.treeTo h.count n).children = _
  have hrank := h.rank_le n
  cases hcount : h.count with
  | zero =>
      rw [hforest.children_of_rank (hcount ▸ hrank)] at hwrites
      rw [hwrites.eq_nil]
      rfl
  | succ count =>
      rw [hforest.join_text markers hwrites fun c hc => ?_]
      · rfl
      · have hlt := hforest.rank_child hc
        omega

/-- Where only elements have children, the writer comes to everything under a node. -/
theorem entered_eq (hwrites : h.Writes (h.children n) vs)
    (helements : ∀ m, h.Below n m → h.children m ≠ [] → h.isElement m = true) : entered vs = h.descendants n := by
  have hall : h.descendants n ⊆ entered vs := by
    intro m hm
    rw [hforest.mem_entered_children hwrites]
    refine ⟨hforest.mem_descendants.mp hm, fun q hq hqm => helements q hq fun hnone => ?_⟩
    obtain ⟨c, hc, -⟩ := Relation.TransGen.head'_iff.mp hqm
    simpa [hnone] using (hforest.links q c).mpr hc
  have hle := (List.subperm_of_subset (hforest.nodup_descendants n) hall).length_le
  exact (hforest.entered_sublist hwrites).eq_of_length_le hle

end Forest

end Writing

/-- The walk with a stack is the order of the document. On a forest it ends, from every node, and lists everything
below the node, each node once and in the order of the document. The writer comes to nodes in this order too, but only
to those with nothing but elements in between: where only elements have children these are all. The text of a node is
made of all texts at and below it in this order, whether they are written or not, and what is looked for by an id, a tag
or a class is found in this order among the attached nodes. -/
theorem walked_as_written (hforest : Forest h) (n : NodeId) :
    h.Turns ([], (h.children n).reverse) (h.descendants n, []) ∧
    (h.descendants n).Nodup ∧ (∀ m, m ∈ h.descendants n ↔ h.Below n m) ∧
    (∀ m m', [m, m'].Sublist (h.descendants n) ↔ h.Below n m ∧ h.Below n m' ∧ h.Precedes m m') ∧
    (∃ vs, h.Writes (h.children n) vs ∧
      h.toHtml n = String.join (vs.map (Visit.text h false)) ∧
      h.toHtmlWithMarkers n = String.join (vs.map (Visit.text h true)) ∧
      (entered vs).Sublist (h.descendants n) ∧ (∀ m, m ∈ entered vs ↔ h.Below n m ∧ h.Exposes n m) ∧
      ((∀ m, h.Below n m → h.children m ≠ [] → h.isElement m = true) → entered vs = h.descendants n)) ∧
    h.textContent n = String.join ((n :: h.descendants n).filterMap h.text?) ∧
    (∀ id, ∃ ns, h.Finds (fun m => (h.content m).id = some id) ns ∧ h.findById id = ns.head?) ∧
    (∀ tag, h.Finds (fun m => (h.content m).kind = .element tag) (h.findByTag tag)) ∧
    (∀ name, h.Finds (fun m => name ∈ (h.content m).classes) (h.findByClass name)) := by
  obtain ⟨vs, hwrites⟩ := hforest.exists_writes (h.children n)
  have hwriter := And.intro (hforest.writeAll_tree false hwrites) (hforest.writeAll_tree true hwrites)
  refine ⟨hforest.turns_descendants n, hforest.nodup_descendants n, fun m => hforest.mem_descendants,
    fun m m' => hforest.sublist_descendants_iff, ⟨vs, hwrites, hwriter.1, hwriter.2, hforest.entered_sublist hwrites,
      fun m => hforest.mem_entered_children hwrites, hforest.entered_eq hwrites⟩, join_ownText _,
    fun id => ⟨_, hforest.finds_filter _, List.head?_filter.symm⟩, fun tag => hforest.finds_filter _,
    fun name => hforest.finds_filter _⟩

/-- A list whose items were made in another order, with a marker behind them. -/
theorem walked_as_written_list : ∃ h : Host, h.Forest ∧ h.children root = [⟨1⟩] ∧ h.children ⟨1⟩ = [⟨5⟩, ⟨2⟩, ⟨4⟩] ∧
    h.Turns ([], [⟨1⟩]) ([⟨1⟩, ⟨5⟩, ⟨6⟩, ⟨2⟩, ⟨3⟩, ⟨4⟩], []) ∧
    h.toHtmlWithMarkers root = "<ul><li>one</li><li>two</li><!--each--></ul>" ∧
    (∃ vs, h.Writes [⟨1⟩] vs ∧ entered vs = [⟨1⟩, ⟨5⟩, ⟨6⟩, ⟨2⟩, ⟨3⟩, ⟨4⟩]) ∧ h.textContent root = "onetwo" ∧
    h.Finds (fun m => (h.content m).kind = .element "li") [⟨5⟩, ⟨2⟩] := by
  let calls : List TreeCall := [.createElement "ul", .createElement "li", .createText "two", .createMarker "each",
    .append root ⟨1⟩, .append ⟨1⟩ ⟨2⟩, .append ⟨2⟩ ⟨3⟩, .append ⟨1⟩ ⟨4⟩, .createElement "li", .createText "one",
    .insertBefore ⟨1⟩ ⟨5⟩ ⟨2⟩, .append ⟨5⟩ ⟨6⟩]
  have hforest : Forest (Host.new.doAll calls) := forest_new.doAll (by decide +kernel) (by decide +kernel)
  have hroot : (Host.new.doAll calls).children root = [⟨1⟩] := by decide +kernel
  have hlisted : (Host.new.doAll calls).descendants root = [⟨1⟩, ⟨5⟩, ⟨6⟩, ⟨2⟩, ⟨3⟩, ⟨4⟩] := by decide +kernel
  have helements : ∀ m ∈ (Host.new.doAll calls).descendants root, (Host.new.doAll calls).children m ≠ [] →
      (Host.new.doAll calls).isElement m = true := by decide +kernel
  have htags : (Host.new.doAll calls).findByTag "li" = [⟨5⟩, ⟨2⟩] := by decide +kernel
  obtain ⟨hturns, -, hmem, -, ⟨vs, hwrites, -, -, -, -, hall⟩, -, -, hfinds, -⟩ := walked_as_written hforest root
  have hentered := hall fun m hm => helements m ((hmem m).mpr hm)
  rw [hroot, hlisted] at hturns
  rw [hroot] at hwrites
  exact ⟨_, hforest, hroot, by decide +kernel, hturns, by decide +kernel, ⟨vs, hwrites, hentered.trans hlisted⟩,
    by decide +kernel, htags ▸ hfinds "li"⟩

/-- A text that stands under a text is a descendant of the root and part of its text, but the writer does not come to
it. -/
theorem text_unwritten : ∃ h : Host, h.Forest ∧ h.descendants root = [⟨1⟩, ⟨2⟩] ∧ h.toHtml root = "a" ∧
    h.toHtmlWithMarkers root = "a" ∧ h.textContent root = "ab" ∧
    ∀ vs, h.Writes (h.children root) vs → entered vs = [⟨1⟩] ∧ entered vs ≠ h.descendants root ∧
      h.textContent root ≠ String.join ((root :: entered vs).filterMap h.text?) := by
  let calls : List TreeCall := [.createText "a", .append root ⟨1⟩, .createText "b", .append ⟨1⟩ ⟨2⟩]
  have hforest : Forest (Host.new.doAll calls) := forest_new.doAll (by decide +kernel) (by decide +kernel)
  refine ⟨_, hforest, by decide +kernel, by decide +kernel, by decide +kernel, by decide +kernel, fun vs hwrites => ?_⟩
  have hroot : (Host.new.doAll calls).children root = [⟨1⟩] := by decide +kernel
  have hinner : (Host.new.doAll calls).Writes ((Host.new.doAll calls).shownChildren ⟨1⟩) [] := by
    rw [show (Host.new.doAll calls).shownChildren ⟨1⟩ = [] by decide +kernel]
    exact .done
  rw [hroot] at hwrites
  obtain rfl : vs = [.enter ⟨1⟩, .leave ⟨1⟩] := hwrites.unique (.node hinner .done)
  exact ⟨rfl, by decide +kernel, by decide +kernel⟩

end Parlance.Host
