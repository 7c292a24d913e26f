import Mathlib.Data.Fintype.Card
import Parlance.Proofs.Host.Walks
import Parlance.Proofs.Markup.Reader

/-! Markup read back. The markup of everything under a node, with markers, tells every element with its attributes and
all that is in it, every marker and every text, apart from where one text ends and the next one begins. No text and no
value can be taken for markup. -/

namespace Parlance

/-- What markup shows: elements with what is in them, comments and texts. -/
inductive Markup.Item where
  | element (tag : String) (attributes : List (String × String)) (items : List Item)
  | comment (label : String)
  | text (value : String)

namespace Markup

/-- Nests tokens, below the elements that are open with what stands before them. -/
def nest : List (String × List (String × String) × List Item) → List Item → List Token → Option (List Item)
  | [], items, [] => some items
  | _ :: _, _, [] => none
  | opened, items, .opening tag attributes :: ts => nest ((tag, attributes, items) :: opened) [] ts
  | [], _, .closing _ :: _ => none
  | (tag, attributes, before) :: opened, items, .closing tag' :: ts =>
      if tag = tag' then nest opened (before ++ [.element tag attributes items]) ts else none
  | opened, items, .comment label :: ts => nest opened (items ++ [.comment label]) ts
  | opened, items, .text value :: ts => nest opened (items ++ [.text value]) ts

/-- Reads markup. -/
def read (markup : String) : Option (List Item) := (tokens markup).bind (nest [] [])

mutual

/-- An item as tokens. -/
def Item.tokens : Item → List Token
  | .element tag attributes items => .opening tag attributes :: allTokens items ++ [.closing tag]
  | .comment label => [.comment label]
  | .text value => [.text value]

def allTokens : List Item → List Token
  | [] => []
  | item :: items => item.tokens ++ allTokens items

end

/-- An item put before others; a text runs into a text that follows, and no text is nothing. -/
def Item.before : Item → List Item → List Item
  | .text value, .text value' :: items => .text (value ++ value') :: items
  | .text value, items => if value = "" then items else .text value :: items
  | item, items => item :: items

mutual

/-- An item with every run of texts in it made one text. -/
def Item.merged : Item → Item
  | .element tag attributes items => .element tag attributes (merged items)
  | item => item

/-- Items with every run of texts made one text. -/
def merged : List Item → List Item
  | [] => []
  | item :: items => item.merged.before (merged items)

end

section Nesting

mutual

theorem nest_tokens (item : Item) (opened : List (String × List (String × String) × List Item)) (before : List Item)
    (ts : List Token) : nest opened before (item.tokens ++ ts) = nest opened (before ++ [item]) ts := by
  cases item with
  | element tag attributes items =>
      have hinner := nest_allTokens items ((tag, attributes, before) :: opened) [] (.closing tag :: ts)
      rw [Item.tokens, List.cons_append, List.cons_append, List.append_assoc, nest, List.singleton_append, hinner, nest,
        if_pos rfl, List.nil_append]
  | comment label => rw [Item.tokens, List.singleton_append, nest]
  | text value => rw [Item.tokens, List.singleton_append, nest]

theorem nest_allTokens (items : List Item) (opened : List (String × List (String × String) × List Item))
    (before : List Item) (ts : List Token) :
    nest opened before (allTokens items ++ ts) = nest opened (before ++ items) ts := by
  cases items with
  | nil => rw [allTokens, List.nil_append, List.append_nil]
  | cons item items =>
      rw [allTokens, List.append_assoc, nest_tokens item, nest_allTokens items, List.append_assoc,
        List.singleton_append]

end

/-- Items are nested again as they were. -/
theorem nest_items (items : List Item) : nest [] [] (allTokens items) = some items := by
  have hnest := nest_allTokens items [] [] []
  rwa [List.append_nil, List.nil_append, nest] at hnest

end Nesting

section Merging

variable {t : Token}

/-- What stands before a tag does not reach beyond it. -/
theorem before_append (t' : Token) (ht : ∀ value, t ≠ .text value) (ts ts' : List Token) :
    t'.before (ts ++ t :: ts') = t'.before ts ++ t :: ts' := by
  cases t' with
  | text value =>
      cases ts with
      | nil =>
          rw [List.nil_append, before_text_of_ne (by simp [ht]), before_text_of_ne (by simp)]
          split <;> rfl
      | cons u ts =>
          by_cases hu : ∃ w, u = .text w
          · obtain ⟨w, rfl⟩ := hu
            rfl
          · have hne : ∀ w, u ≠ .text w := fun w heq => hu ⟨w, heq⟩
            rw [List.cons_append, before_text_of_ne (by simp [hne]), before_text_of_ne (by simp [hne])]
            split <;> rfl
  | opening tag attributes => rfl
  | closing tag => rfl
  | comment label => rfl

theorem joined_append (ht : ∀ value, t ≠ .text value) (ts ts' : List Token) :
    joined (ts ++ t :: ts') = joined ts ++ t :: joined ts' := by
  induction ts with
  | nil => exact before_of_ne ht _
  | cons u ts ih =>
      have hcons : ∀ us, joined (u :: us) = u.before (joined us) := fun _ => rfl
      rw [List.cons_append, hcons, ih, before_append u ht, hcons]

theorem item_before_text_of_ne {items : List Item} (value : String)
    (hitems : ∀ value' items', items ≠ .text value' :: items') :
    Item.before (.text value) items = if value = "" then items else .text value :: items := by
  rw [Item.before]
  exact hitems

/-- Putting a text before items is putting it before their tokens. -/
theorem before_allTokens (value : String) (items : List Item) :
    Token.before (.text value) (allTokens items) = allTokens (Item.before (.text value) items) := by
  by_cases htext : ∃ w rest, items = .text w :: rest
  · obtain ⟨w, rest, rfl⟩ := htext
    rfl
  · have hitems : ∀ w rest, items ≠ .text w :: rest := fun w rest heq => htext ⟨w, rest, heq⟩
    have htokens : ∀ w ts, allTokens items ≠ .text w :: ts := by
      intro w ts
      cases items with
      | nil => rw [allTokens]; simp
      | cons item items =>
          cases item with
          | text value => exact absurd rfl (hitems value items)
          | element tag attributes inner => rw [allTokens, Item.tokens]; simp
          | comment label => rw [allTokens, Item.tokens]; simp
    rw [before_text_of_ne htokens, item_before_text_of_ne value hitems]
    by_cases hvalue : value = ""
    · rw [if_pos hvalue, if_pos hvalue]
    · rw [if_neg hvalue, if_neg hvalue]
      rfl

mutual

theorem joined_tokens (item : Item) (items : List Item) (ts : List Token) (hts : joined ts = allTokens items) :
    joined (item.tokens ++ ts) = allTokens (item.merged.before items) := by
  cases item with
  | element tag attributes inner =>
      have hinner := joined_allTokens inner
      calc joined ((Item.element tag attributes inner).tokens ++ ts)
          = .opening tag attributes :: joined (allTokens inner ++ .closing tag :: ts) := by
            rw [Item.tokens, List.cons_append, List.cons_append, List.append_assoc]; rfl
        _ = .opening tag attributes :: (allTokens (merged inner) ++ .closing tag :: allTokens items) := by
            rw [joined_append (by simp), hinner, hts]
        _ = allTokens (.element tag attributes (merged inner) :: items) := by
            rw [allTokens, Item.tokens, List.cons_append, List.cons_append, List.append_assoc]; rfl
  | comment label =>
      show Token.comment label :: joined ts = Token.comment label :: allTokens items
      rw [hts]
  | text value =>
      show Token.before (.text value) (joined ts) = allTokens (Item.before (.text value) items)
      rw [hts, before_allTokens]

/-- Joining the texts among tokens is merging the texts among items. -/
theorem joined_allTokens (items : List Item) : joined (allTokens items) = allTokens (merged items) := by
  cases items with
  | nil => rfl
  | cons item items => rw [allTokens, merged, joined_tokens item (merged items) _ (joined_allTokens items)]

end

end Merging

section Writing

/-- The attributes of an element as a reader is to find them: its id, its classes in one value, its attributes, its
dataset and its style in one value. -/
def attributeList (c : Content) : List (String × String) :=
  (match c.id with
    | some id => [("id", id)]
    | none => []) ++
  (match c.classes with
    | [] => []
    | name :: names => [("class", " ".intercalate (name :: names))]) ++
  c.attributes ++
  c.dataset.map (fun (key, value) => ("data-" ++ key, value)) ++
  (match c.style.map fun (key, value) => key ++ ": " ++ value ++ ";" with
    | [] => []
    | entry :: entries => [("style", " ".intercalate (entry :: entries))])

theorem shown_eq (c : Content) : shown c = attributeList c := by
  obtain ⟨kind, id, attributes, classes, properties, dataset, style⟩ := c
  cases id <;> cases classes <;> cases style <;> rfl

/-- Names of letters, digits and dashes wherever a name is written. -/
def PlainNames (c : Content) : Prop := (∀ e ∈ c.attributes, Plain e.1) ∧ ∀ e ∈ c.dataset, Plain e.1

mutual

/-- A node is an element, a marker or a text, as an item has it, and so is everything under it. Labels are of letters,
digits and dashes, as those of the engine are. -/
def Item.Tells (h : Host) : Item → NodeId → Prop
  | .element tag attributes items, n => (h.content n).kind = .element tag ∧ attributeList (h.content n) = attributes ∧
      Plain tag ∧ PlainNames (h.content n) ∧ AllTell h items (h.children n)
  | .comment label, n => (h.content n).kind = .marker label ∧ Plain label
  | .text value, n => (h.content n).kind = .text value

/-- Nodes are what items have one after the other. -/
def AllTell (h : Host) : List Item → List NodeId → Prop
  | [], [] => True
  | item :: items, n :: ns => item.Tells h n ∧ AllTell h items ns
  | _, _ => False

end

mutual

/-- How deep an item goes below itself. -/
def Item.height : Item → Nat
  | .element _ _ items => height items
  | _ => 0

/-- How deep items go. -/
def height : List Item → Nat
  | [] => 0
  | item :: items => max (item.height + 1) (height items)

end

variable {h : Host} {n : NodeId}

theorem plain_append {name name' : String} (hname : Plain name) (hname' : Plain name') : Plain (name ++ name') := by
  intro c hc
  rw [String.toList_append, List.mem_append] at hc
  exact hc.elim (hname c) (hname' c)

theorem plain_attributeList {c : Content} (hc : PlainNames c) : ∀ e ∈ attributeList c, Plain e.1 := by
  intro e he
  simp only [attributeList, List.mem_append, List.mem_map] at he
  rcases he with (((hid | hclass) | hown) | ⟨e', he', rfl⟩) | hstyle
  · split at hid
    · rw [List.mem_singleton.mp hid]
      show Plain "id"
      decide
    · cases hid
  · split at hclass
    · cases hclass
    · rw [List.mem_singleton.mp hclass]
      show Plain "class"
      decide
  · exact hc.1 e hown
  · exact plain_append (by decide) (hc.2 e' he')
  · split at hstyle
    · cases hstyle
    · rw [List.mem_singleton.mp hstyle]
      show Plain "style"
      decide

theorem toString_string (s : String) : toString s = s := rfl

theorem attributeText_toList (e : String × String) : (attributeText e).toList = attributeChars e := by
  simp [attributeText, attributeChars, escape, escaped, toString_string]

theorem attributesText_toList (c : Content) :
    ((shown c).map attributeText).flatMap String.toList = (attributeList c).flatMap attributeChars := by
  rw [List.flatMap_map, shown_eq]
  exact List.flatMap_congr fun e _ => attributeText_toList e

theorem write_element {c : Content} {tag : String} (hkind : c.kind = .element tag) (children : List Tree) :
    (write true (.node c children)).toList = (Token.opening tag (attributeList c)).chars ++
      (writeAll true children).toList ++ (Token.closing tag).chars := by
  rw [write, hkind]
  simp [String.toList_append, attributesText_toList]

theorem eq_nil_of_allTell {ns : List NodeId} (h : Host) (htell : AllTell h [] ns) : ns = [] := by
  cases ns with
  | nil => rfl
  | cons n ns => exact htell.elim

mutual

/-- What is written of a node is what its item is written as. -/
theorem write_tells (item : Item) (n : NodeId) (depth : Nat) (htells : item.Tells h n) (hdepth : item.height ≤ depth) :
    (write true (h.treeTo depth n)).toList = item.tokens.flatMap Token.chars := by
  obtain ⟨trees, htree⟩ : ∃ trees, h.treeTo depth n = .node (h.content n) trees := by cases depth <;> exact ⟨_, rfl⟩
  cases item with
  | element tag attributes items =>
      obtain ⟨hkind, hattributes, -, -, hchildren⟩ := htells
      have hinner : ∃ trees, h.treeTo depth n = .node (h.content n) trees ∧
          (writeAll true trees).toList = (allTokens items).flatMap Token.chars := by
        cases depth with
        | zero =>
            cases items with
            | nil => exact ⟨[], rfl, rfl⟩
            | cons item items => simp [Item.height, height] at hdepth
        | succ depth => exact ⟨_, rfl, writeAll_tells items (h.children n) depth hchildren hdepth⟩
      obtain ⟨trees, htree, hinner⟩ := hinner
      rw [htree, write_element hkind, hattributes, hinner, Item.tokens]
      simp
  | comment label =>
      rw [htree, write, htells.1]
      simp [Item.tokens, toString_string]
  | text value =>
      rw [htree, write, htells]
      simp [Item.tokens, escape, escaped]

theorem writeAll_tells (items : List Item) (ns : List NodeId) (depth : Nat) (htell : AllTell h items ns)
    (hdepth : height items ≤ depth + 1) :
    (writeAll true (ns.map (h.treeTo depth))).toList = (allTokens items).flatMap Token.chars := by
  cases items with
  | nil =>
      rw [eq_nil_of_allTell h htell]
      rfl
  | cons item items =>
      cases ns with
      | nil => exact htell.elim
      | cons n ns =>
          obtain ⟨hhead, hrest⟩ := htell
          rw [height] at hdepth
          have hitem := write_tells item n depth hhead (by omega)
          have hitems := writeAll_tells items ns depth hrest (by omega)
          rw [List.map_cons, writeAll, String.toList_append, hitem, hitems, allTokens, List.flatMap_append]

end

mutual

/-- Items that nodes show have names and labels that can be told. -/
theorem plain_tokens (item : Item) (n : NodeId) (htells : item.Tells h n) : ∀ t ∈ item.tokens, t.Plain := by
  cases item with
  | element tag attributes items =>
      obtain ⟨-, hattributes, htag, hnames, hchildren⟩ := htells
      have hinner := plain_allTokens items (h.children n) hchildren
      intro t ht
      rw [Item.tokens, List.mem_append, List.mem_cons, List.mem_singleton] at ht
      rcases ht with (rfl | ht) | rfl
      · exact ⟨htag, hattributes ▸ plain_attributeList hnames⟩
      · exact hinner t ht
      · exact htag
  | comment label =>
      intro t ht
      rw [List.mem_singleton.mp ht]
      exact htells.2
  | text value =>
      intro t ht
      rw [List.mem_singleton.mp ht]
      trivial

theorem plain_allTokens (items : List Item) (ns : List NodeId) (htell : AllTell h items ns) :
    ∀ t ∈ allTokens items, t.Plain := by
  cases items with
  | nil => exact fun t ht => by cases ht
  | cons item items =>
      cases ns with
      | nil => exact htell.elim
      | cons n ns =>
          intro t ht
          rcases List.mem_append.mp ht with ht | ht
          · exact plain_tokens item n htell.1 t ht
          · exact plain_allTokens items ns htell.2 t ht

end

mutual

/-- A node shows one item only. -/
theorem tells_unique (item item' : Item) (n : NodeId) (htells : item.Tells h n) (htells' : item'.Tells h n) :
    item = item' := by
  cases item with
  | element tag attributes items =>
      cases item' with
      | element tag' attributes' items' =>
          have htag : tag = tag' := by simpa [htells.1] using htells'.1
          have hitems := allTell_unique items items' (h.children n) htells.2.2.2.2 htells'.2.2.2.2
          rw [htag, ← htells.2.1, ← htells'.2.1, hitems]
      | comment label => exact absurd (htells.1.symm.trans htells'.1) (by simp)
      | text value => exact absurd (htells.1.symm.trans htells') (by simp)
  | comment label =>
      cases item' with
      | element tag attributes items => exact absurd (htells.1.symm.trans htells'.1) (by simp)
      | comment label' => exact congrArg Item.comment (by simpa [htells.1] using htells'.1)
      | text value => exact absurd (htells.1.symm.trans htells') (by simp)
  | text value =>
      have hkind : (h.content n).kind = .text value := htells
      cases item' with
      | element tag attributes items => exact absurd (hkind.symm.trans htells'.1) (by simp)
      | comment label => exact absurd (hkind.symm.trans htells'.1) (by simp)
      | text value' =>
          have hkind' : (h.content n).kind = .text value' := htells'
          exact congrArg Item.text (by simpa [hkind] using hkind')

theorem allTell_unique (items items' : List Item) (ns : List NodeId) (htell : AllTell h items ns)
    (htell' : AllTell h items' ns) : items = items' := by
  cases items with
  | nil =>
      rw [eq_nil_of_allTell h htell] at htell'
      cases items' with
      | nil => rfl
      | cons item' items' => exact htell'.elim
  | cons item items =>
      cases ns with
      | nil => exact htell.elim
      | cons n ns =>
          cases items' with
          | nil => exact htell'.elim
          | cons item' items' =>
              rw [tells_unique item item' n htell.1 htell'.1, allTell_unique items items' ns htell.2 htell'.2]

end

/-- A node that shows an item is there. -/
theorem Item.Tells.lt {item : Item} (htells : item.Tells h n) : n.index < h.count := by
  refine Nat.lt_of_not_le fun hle => ?_
  have hroot : (h.content n).kind = .root := by
    rw [Host.content, Host.node, Array.getD_eq_getD_getElem?, Array.getElem?_eq_none hle]
    rfl
  cases item with
  | element tag attributes items => exact absurd (hroot.symm.trans htells.1) (by simp)
  | comment label => exact absurd (hroot.symm.trans htells.1) (by simp)
  | text value => exact absurd (hroot.symm.trans htells) (by simp)

/-- Items of some height have one among them that is one lower. -/
theorem exists_height {items : List Item} {ns : List NodeId} {k : Nat} (htell : AllTell h items ns)
    (hheight : height items = k + 1) : ∃ (item : Item) (n : NodeId), item.Tells h n ∧ item.height = k := by
  induction items generalizing ns with
  | nil => simp [height] at hheight
  | cons item items ih =>
      cases ns with
      | nil => exact htell.elim
      | cons n ns =>
          rw [height] at hheight
          by_cases hitem : item.height + 1 = k + 1
          · exact ⟨item, n, htell.1, Nat.succ.inj hitem⟩
          · exact ih htell.2 (by omega)

open Classical in
/-- The nodes that show items no higher than some height. -/
noncomputable def lowNodes (h : Host) (k : Nat) : Finset (Fin h.count) :=
  Finset.univ.filter fun m => ∃ item : Item, item.Tells h ⟨m⟩ ∧ item.height ≤ k

theorem mem_lowNodes {k : Nat} {m : Fin h.count} :
    m ∈ lowNodes h k ↔ ∃ item : Item, item.Tells h ⟨m⟩ ∧ item.height ≤ k := by
  classical
  simp [lowNodes]

/-- A node that shows an item of some height has as many nodes below it. -/
theorem height_lt {item : Item} (htells : item.Tells h n) : item.height < (lowNodes h item.height).card := by
  generalize hk : item.height = k
  induction k generalizing item n with
  | zero => exact Finset.card_pos.mpr ⟨⟨n.index, htells.lt⟩, mem_lowNodes.mpr ⟨item, htells, Nat.le_of_eq hk⟩⟩
  | succ k ih =>
      obtain ⟨item', m, htells', hk'⟩ : ∃ (item' : Item) (m : NodeId), item'.Tells h m ∧ item'.height = k := by
        cases item with
        | element tag attributes items => exact exists_height htells.2.2.2.2 hk
        | comment label => cases hk
        | text value => cases hk
      refine Nat.lt_of_le_of_lt (ih htells' hk') (Finset.card_lt_card ⟨fun m hm => ?_, fun hsub => ?_⟩)
      · obtain ⟨item', htells', hle⟩ := mem_lowNodes.mp hm
        exact mem_lowNodes.mpr ⟨item', htells', Nat.le_succ_of_le hle⟩
      · -- the node itself shows nothing lower
        have hself : (⟨n.index, htells.lt⟩ : Fin h.count) ∈ lowNodes h (k + 1) :=
          mem_lowNodes.mpr ⟨item, htells, Nat.le_of_eq hk⟩
        obtain ⟨item', htells', hle⟩ := mem_lowNodes.mp (hsub hself)
        rw [← tells_unique item item' n htells htells', hk] at hle
        exact Nat.not_succ_le_self k hle

/-- Items go no deeper than there are nodes. -/
theorem height_le {items : List Item} {ns : List NodeId} (htell : AllTell h items ns) : height items ≤ h.count := by
  cases hk : height items with
  | zero => exact Nat.zero_le _
  | succ k =>
      obtain ⟨item, n, htells, rfl⟩ := exists_height htell hk
      have hcard : (lowNodes h item.height).card ≤ h.count := (Finset.card_le_univ _).trans_eq (Fintype.card_fin _)
      exact Nat.lt_of_lt_of_le (height_lt htells) hcard

/-- A node that can be read back, apart from what is under it. -/
def PlainNode (c : Content) : Prop :=
  match c.kind with
  | .element tag => Plain tag ∧ PlainNames c
  | .marker label => Plain label
  | .text _ => True
  | _ => False

theorem exists_allTell {ns : List NodeId} (hns : ∀ n ∈ ns, ∃ item : Item, item.Tells h n) :
    ∃ items, AllTell h items ns := by
  induction ns with
  | nil => exact ⟨[], trivial⟩
  | cons n ns ih =>
      obtain ⟨item, hitem⟩ := hns n List.mem_cons_self
      obtain ⟨items, hitems⟩ := ih fun m hm => hns m (List.mem_cons_of_mem n hm)
      exact ⟨item :: items, hitem, hitems⟩

/-- In a forest everything under a node shows as items, if every node there can be read back. -/
theorem exists_items (hforest : h.Forest) (hplain : ∀ m, h.Below n m → PlainNode (h.content m)) :
    ∃ items, AllTell h items (h.children n) := by
  induction hrank : h.rank n using Nat.strong_induction_on generalizing n with
  | _ k ih =>
      refine exists_allTell fun c hc => ?_
      have hlink : h.parent c = some n := (hforest.links n c).mp hc
      have hinner := ih (h.rank c) (hrank ▸ hforest.rank_lt hlink) (fun m hm => hplain m (.head hlink hm)) rfl
      obtain ⟨items, hitems⟩ := hinner
      have hnode := hplain c (.single hlink)
      unfold PlainNode at hnode
      split at hnode
      next tag hkind => exact ⟨.element tag _ items, hkind, rfl, hnode.1, hnode.2, hitems⟩
      next label hkind => exact ⟨.comment label, hkind, hnode⟩
      next value hkind => exact ⟨.text value, hkind⟩
      next => exact hnode.elim

end Writing

/-- The markup of everything under a node is read back. Whatever the texts and the values of attributes, classes, ids,
dataset entries and styles are: if everything under the node is an element, a text or a marker, and the names and labels
that are written as they are have only letters, digits and dashes, a reader finds the elements as they are nested, with
their attributes, the markers, and the texts, apart from where one text ends and the next one begins. -/
theorem read_markup {h : Host} {n : NodeId} {items : List Item} (hitems : AllTell h items (h.children n)) :
    read (h.toHtmlWithMarkers n) = some (merged items) := by
  have hwritten : (h.toHtmlWithMarkers n).toList = (allTokens items).flatMap Token.chars := by
    have hheight := height_le hitems
    rw [Host.toHtmlWithMarkers, Host.tree]
    change (writeAll true (h.treeTo h.count n).children).toList = _
    cases hcount : h.count with
    | zero =>
        have hnone : h.children n = [] := h.children_of_count_le (hcount ▸ Nat.zero_le _)
        rw [hnone] at hitems
        cases items with
        | nil => rfl
        | cons item items => exact hitems.elim
    | succ count => exact writeAll_tells items (h.children n) count hitems (hcount ▸ hheight)
  have hplain := plain_allTokens items (h.children n) hitems
  rw [read, ← String.ofList_toList (s := h.toHtmlWithMarkers n), hwritten, tokens_chars hplain, Option.bind_some,
    joined_allTokens, nest_items]

/-- A text that looks like a tag and an entity, and a value that looks like the end of a tag. -/
theorem read_markup_lookalike : ∃ (h : Host) (items : List Item), AllTell h items (h.children Host.root) ∧
    h.toHtmlWithMarkers Host.root = "<p title=\"&quot;&gt;\">&lt;b&gt;&amp;amp;</p><!--if-->" ∧
    read (h.toHtmlWithMarkers Host.root) = some [.element "p" [("title", "\">")] [.text "<b>&amp;"], .comment "if"] := by
  have hmade : ∃ h : Host, h.children Host.root = [⟨1⟩, ⟨4⟩] ∧ h.children ⟨1⟩ = [⟨2⟩, ⟨3⟩] ∧
      h.content ⟨1⟩ = ⟨.element "p", none, [("title", "\">")], [], [], [], []⟩ ∧
      (h.content ⟨2⟩).kind = .text "<b>" ∧ (h.content ⟨3⟩).kind = .text "&amp;" ∧
      (h.content ⟨4⟩).kind = .marker "if" ∧
      h.toHtmlWithMarkers Host.root = "<p title=\"&quot;&gt;\">&lt;b&gt;&amp;amp;</p><!--if-->" :=
    ⟨((((((((Host.new.createElement "p").2.appendChild Host.root ⟨1⟩).setAttribute ⟨1⟩ "title" "\">").createText
      "<b>").2.appendChild ⟨1⟩ ⟨2⟩).createText "&amp;").2.appendChild ⟨1⟩ ⟨3⟩).createMarker "if").2.appendChild
      Host.root ⟨4⟩, by decide +kernel⟩
  obtain ⟨h, hroot, hone, hp, htwo, hthree, hfour, hmarkup⟩ := hmade
  have hitems : AllTell h [.element "p" [("title", "\">")] [.text "<b>", .text "&amp;"], .comment "if"]
      (h.children Host.root) := by
    rw [hroot]
    refine ⟨⟨by rw [hp], by rw [hp]; rfl, by decide, by rw [hp]; exact ⟨by decide +kernel, by decide⟩, ?_⟩,
      ⟨hfour, by decide⟩, trivial⟩
    rw [hone]
    exact ⟨htwo, hthree, trivial⟩
  exact ⟨h, _, hitems, hmarkup, read_markup hitems⟩

end Markup

end Parlance
