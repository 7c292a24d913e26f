import Mathlib.Data.List.Defs
import Parlance.Proofs.Engine.RenderStep
import Parlance.Proofs.Host.Children
import Parlance.Proofs.Sentence.Likeness

/-! What the calls of a host do to the contents of its nodes. A node holds entries, each at a place of its
own, and a call that writes touches one place of one node. Every other call leaves all contents alone. A node
without children gets some only where a node is put under it. -/

namespace Parlance

/-- A place in the content of a node where one entry can stand. -/
inductive Place where
  | attribute (name : String)
  | property (name : String)
  | dataset (key : String)
  | style (key : String)
  | cssClass (name : String)
  | id
deriving DecidableEq

namespace Write

def place : Write → Place
  | .attribute name _ => .attribute name
  | .property name _ => .property name
  | .dataset key _ => .dataset key
  | .style key _ => .style key
  | .cssClass name => .cssClass name
  | .id _ => .id

/-- What comes to stand at the place; a class has no value, and the sign of zero does not count. -/
def value : Write → Scalar
  | .attribute _ value => .str value
  | .property _ value => value.canonical
  | .dataset _ value => .str value
  | .style _ value => .str value
  | .cssClass _ => .null
  | .id value => .str value

end Write

namespace Content

/-- What stands at a place. -/
def held (c : Content) : Place → Option Scalar
  | .attribute name => (c.attributes.get? name).map .str
  | .property name => (c.properties.get? name).map Scalar.canonical
  | .dataset key => (c.dataset.get? key).map .str
  | .style key => (c.style.get? key).map .str
  | .cssClass name => if name ∈ c.classes then some .null else none
  | .id => c.id.map .str

def enter (c : Content) : Write → Content
  | .attribute name value => { c with attributes := c.attributes.put name value }
  | .property name value => { c with properties := c.properties.put name value }
  | .dataset key value => { c with dataset := c.dataset.put key value }
  | .style key value => { c with style := c.style.put key value }
  | .cssClass name => { c with classes := if name ∈ c.classes then c.classes else c.classes ++ [name] }
  | .id value => { c with id := some value }

def leave (c : Content) : Place → Content
  | .attribute name => { c with attributes := c.attributes.erase name }
  | .property name => { c with properties := c.properties.erase name }
  | .dataset key => { c with dataset := c.dataset.erase key }
  | .style key => { c with style := c.style.erase key }
  | .cssClass name => { c with classes := c.classes.filter (· ≠ name) }
  | .id => { c with id := none }

theorem kind_enter (c : Content) (w : Write) : (c.enter w).kind = c.kind := by cases w <;> rfl

theorem kind_leave (c : Content) (π : Place) : (c.leave π).kind = c.kind := by cases π <;> rfl

theorem held_new (kind : NodeKind) (π : Place) : (Content.new kind).held π = none := by
  cases π <;> simp [held, Content.new, Entries.get?]

theorem held_enter (c : Content) (w : Write) (π : Place) :
    (c.enter w).held π = if π = w.place then some w.value else c.held π := by
  split
  · next hπ =>
    subst hπ
    cases w with
    | «attribute» | property | dataset | style => simp [enter, held, Write.place, Write.value, Entries.get?_put]
    | cssClass name =>
        simp only [enter, held, Write.place, Write.value]
        split
        · rfl
        · rw [if_pos (by simp)]
    | id => rfl
  · next hπ =>
    cases w with
    | «attribute» | property | dataset | style =>
        cases π <;> try rfl
        all_goals
          simp only [enter, held, Entries.get?_put]
          rw [if_neg]
          rintro rfl
          exact hπ rfl
    | cssClass name =>
        cases π with
        | cssClass other =>
            have hne : other ≠ name := fun heq => hπ (heq ▸ rfl)
            have hmem : other ∈ (c.enter (.cssClass name)).classes ↔ other ∈ c.classes := by
              unfold enter
              dsimp only
              split <;> simp [hne]
            exact if_congr hmem rfl rfl
        | _ => rfl
    | id => cases π <;> first | rfl | exact absurd rfl hπ

theorem held_leave (c : Content) (place π : Place) :
    (c.leave place).held π = if π = place then none else c.held π := by
  split
  · next hπ =>
    subst hπ
    cases π with
    | «attribute» | property | dataset | style => simp [leave, held, Entries.get?_erase]
    | cssClass => simp [leave, held]
    | id => rfl
  · next hπ =>
    cases place with
    | «attribute» | property | dataset | style =>
        cases π <;> try rfl
        all_goals
          simp only [leave, held, Entries.get?_erase]
          rw [if_neg]
          rintro rfl
          exact hπ rfl
    | cssClass name =>
        cases π with
        | cssClass other =>
            have hne : other ≠ name := fun heq => hπ (heq ▸ rfl)
            have hmem : other ∈ (c.leave (.cssClass name)).classes ↔ other ∈ c.classes := by simp [leave, hne]
            exact if_congr hmem rfl rfl
        | _ => rfl
    | id => cases π <;> first | rfl | exact absurd rfl hπ

/-- What stands at a place, with the sign of zero. -/
def stored (c : Content) : Place → Option Scalar
  | .property name => c.properties.get? name
  | π => c.held π

theorem stored_eq_none {c : Content} {π : Place} : c.stored π = none ↔ c.held π = none := by
  cases π <;> simp [stored, held]

theorem stored_enter_of_ne (c : Content) {w : Write} {π : Place} (hπ : π ≠ w.place) :
    (c.enter w).stored π = c.stored π := by
  have hheld := c.held_enter w π
  rw [if_neg hπ] at hheld
  cases π with
  | property name =>
      cases w with
      | property key value =>
          have hne : name ≠ key := fun heq => hπ (heq ▸ rfl)
          simp [stored, enter, Entries.get?_put, hne]
      | _ => rfl
  | _ => exact hheld

theorem stored_leave_of_ne (c : Content) {place π : Place} (hπ : π ≠ place) :
    (c.leave place).stored π = c.stored π := by
  have hheld := c.held_leave place π
  rw [if_neg hπ] at hheld
  cases π with
  | property name =>
      cases place with
      | property key =>
          have hne : name ≠ key := fun heq => hπ (heq ▸ rfl)
          simp [stored, leave, Entries.get?_erase, hne]
      | _ => rfl
  | _ => exact hheld

end Content

/-- Whether a node of a kind may have children. -/
def NodeKind.isParent : NodeKind → Bool
  | .root | .element _ => true
  | _ => false

namespace Host

/-- Of the nodes from a number on, only those that may have children have any. -/
def Roomy (h : Host) (k : Nat) : Prop := ∀ n, k ≤ n.index → (h.content n).kind.isParent = false → h.children n = []

/-- Takes what stands at a place off a node. -/
def erase (h : Host) (n : NodeId) : Place → Host
  | .attribute name => h.removeAttribute n name
  | .property name => h.removeProperty n name
  | .dataset key => h.removeDataset n key
  | .style key => h.removeStyle n key
  | .cssClass name => h.removeClass n name
  | .id => h.clearId n

theorem content_modifyContent (h : Host) {n : NodeId} (f : Content → Content) (hn : n.index < h.count)
    (m : NodeId) : (h.modifyContent n f).content m = if m = n then f (h.content m) else h.content m := by
  rw [content, modifyContent, node_modify]
  by_cases heq : m = n
  · rw [if_pos ⟨heq, hn⟩, if_pos heq]
    rfl
  · rw [if_neg fun hand => heq hand.1, if_neg heq]
    rfl

/-- The entries of one node have changed, and nothing else of any content. -/
structure Touches (n : NodeId) (f : Place → Option Scalar) (h h' : Host) : Prop where
  count : h'.count = h.count
  others : ∀ m, m ≠ n → h'.content m = h.content m
  kind : (h'.content n).kind = (h.content n).kind
  held : ∀ π, (h'.content n).held π = f π
  childless : ∀ m, h.children m = [] → h'.children m = []

namespace Touches

variable {n : NodeId} {f f' : Place → Option Scalar} {h h₁ h' : Host}

theorem none (h : Host) (n : NodeId) : Touches n (h.content n).held h h :=
  ⟨rfl, fun _ _ => rfl, rfl, fun _ => rfl, fun _ hm => hm⟩

theorem trans (hfirst : Touches n f h h₁) (hsecond : Touches n f' h₁ h') : Touches n f' h h' :=
  ⟨hsecond.count.trans hfirst.count, fun m hm => (hsecond.others m hm).trans (hfirst.others m hm),
    hsecond.kind.trans hfirst.kind, hsecond.held, fun m hm => hsecond.childless m (hfirst.childless m hm)⟩

theorem congr (htouches : Touches n f h h') (hf : ∀ π, f π = f' π) : Touches n f' h h' :=
  ⟨htouches.count, htouches.others, htouches.kind, fun π => (htouches.held π).trans (hf π), htouches.childless⟩

theorem kind_eq (htouches : Touches n f h h') (m : NodeId) : (h'.content m).kind = (h.content m).kind := by
  by_cases heq : m = n
  · rw [heq, htouches.kind]
  · rw [htouches.others m heq]

theorem roomy {k : Nat} (htouches : Touches n f h h') (hroomy : h.Roomy k) : h'.Roomy k := fun m hk hm =>
  htouches.childless m (hroomy m hk (htouches.kind_eq m ▸ hm))

theorem modify {g : Content → Content} {mutation : Mutation} (hn : n.index < h.count)
    (hkind : ∀ c, (g c).kind = c.kind) (hheld : ∀ π, (g (h.content n)).held π = f π) :
    Touches n f h ((h.modifyContent n g).record mutation) := by
  have hcontent : ∀ m, ((h.modifyContent n g).record mutation).content m =
      if m = n then g (h.content m) else h.content m := content_modifyContent h g hn
  refine ⟨count_modify h n _, fun m hm => ?_, ?_, fun π => ?_, fun m hm => ?_⟩
  · rw [hcontent, if_neg hm]
  · rw [hcontent, if_pos rfl, hkind]
  · rw [hcontent, if_pos rfl, hheld]
  · rw [(SameTree.entry h n g mutation).children, hm]

end Touches

/-- No content differs. -/
structure SameContents (h h' : Host) : Prop where
  count : h'.count = h.count
  content : ∀ n, h'.content n = h.content n
  childless : ∀ n, h.children n = [] → h'.children n = []

namespace SameContents

variable {h h₁ h' : Host}

theorem refl (h : Host) : SameContents h h := ⟨rfl, fun _ => rfl, fun _ hn => hn⟩

theorem trans (hfirst : SameContents h h₁) (hsecond : SameContents h₁ h') : SameContents h h' :=
  ⟨hsecond.count.trans hfirst.count, fun n => (hsecond.content n).trans (hfirst.content n),
    fun n hn => hsecond.childless n (hfirst.childless n hn)⟩

theorem roomy {k : Nat} (hsame : SameContents h h') (hroomy : h.Roomy k) : h'.Roomy k := fun n hk hn =>
  hsame.childless n (hroomy n hk (hsame.content n ▸ hn))

theorem record (h : Host) (m : Mutation) : SameContents h (h.record m) := ⟨rfl, fun _ => rfl, fun _ hn => hn⟩

theorem modify (h : Host) (n : NodeId) {f : Node → Node} (hf : ∀ node, (f node).content = node.content)
    (hchildren : ∀ node, node.children = [] → (f node).children = []) : SameContents h (h.modify n f) := by
  refine ⟨count_modify h n f, fun m => ?_, fun m hm => ?_⟩
  · rw [Host.content, Host.content, node_modify]
    split
    · exact hf _
    · rfl
  · rw [Host.children, node_modify]
    split
    · exact hchildren _ hm
    · exact hm

theorem setParent (h : Host) (n : NodeId) (parent : Option NodeId) : SameContents h (h.setParent n parent) :=
  .modify h n (fun _ => rfl) fun _ hm => hm

theorem dropChild (h : Host) (parent n : NodeId) : SameContents h (h.dropChild parent n) := by
  refine .modify h parent (fun _ => rfl) fun node hnode => ?_
  dsimp only
  rw [hnode]
  rfl

theorem removeChild (h : Host) (parent n : NodeId) : SameContents h (h.removeChild parent n) :=
  (dropChild h parent n).trans ((setParent _ n none).trans (.record _ _))

theorem detach (h : Host) (n : NodeId) : SameContents h (h.detach n) := by
  rw [Host.detach]
  refine SameContents.trans ?_ (setParent _ n none)
  split
  · exact .dropChild h _ n
  · exact .refl h

theorem addListener (h : Host) (n : NodeId) (event : String) (listener : Listener) :
    SameContents h (h.addListener n event listener).2 := by
  have hlisteners : SameContents h { h with listeners := h.listeners.push listener } :=
    ⟨rfl, fun _ => rfl, fun _ hm => hm⟩
  refine hlisteners.trans (SameContents.trans ?_ (.record _ _))
  exact SameContents.modify { h with listeners := h.listeners.push listener } n (fun _ => rfl) fun _ hm => hm

theorem removeListener (h : Host) (n : NodeId) (event : String) (id : ListenerId) :
    SameContents h (h.removeListener n event id) := by
  refine SameContents.trans ?_ (.record _ _)
  exact .modify h n (fun _ => rfl) fun _ hm => hm

theorem rebind (h : Host) (id : ListenerId) (listener : Listener) : SameContents h (h.rebind id listener) :=
  ⟨rfl, fun _ => rfl, fun _ hn => hn⟩

theorem foldl {α : Type} {f : Host → α → Host} (hf : ∀ h a, SameContents h (f h a)) (h : Host) (as : List α) :
    SameContents h (as.foldl f h) := by
  induction as generalizing h with
  | nil => exact .refl h
  | cons a as ih => exact (hf h a).trans (ih (f h a))

end SameContents

/-- One node has been made and put under a parent, and no other content differs. -/
structure Makes (kind : NodeKind) (parent : NodeId) (h h' : Host) : Prop where
  count : h'.count = h.count + 1
  content : ∀ n, h'.content n = if n = h.next then Content.new kind else h.content n
  childless : ∀ n, n ≠ parent → h.children n = [] → h'.children n = []

section Makes

variable {kind : NodeKind} {h h₁ h' : Host} {parent : NodeId}

theorem Makes.trans (hmakes : Makes kind parent h h₁) (hsame : SameContents h₁ h') : Makes kind parent h h' :=
  ⟨hsame.count.trans hmakes.count, fun n => (hsame.content n).trans (hmakes.content n),
    fun n hn hchildren => hsame.childless n (hmakes.childless n hn hchildren)⟩

/-- The children of the parent are changed after everything else has been done. -/
theorem Makes.modify (hmakes : Makes kind parent h h₁) {f : Node → Node}
    (hf : ∀ node, (f node).content = node.content) : Makes kind parent h (h₁.modify parent f) := by
  refine ⟨(count_modify h₁ parent f).trans hmakes.count, fun n => ?_, fun n hn hchildren => ?_⟩
  · rw [← hmakes.content, Host.content, Host.content, node_modify]
    split
    · exact hf _
    · rfl
  · rw [Host.children, node_modify_of_ne h₁ parent f hn]
    exact hmakes.childless n hn hchildren

variable (h parent)

theorem alloc_makes (kind : NodeKind) : Makes kind parent h (h.alloc kind) := by
  refine ⟨count_alloc h kind, fun n => ?_, fun n _ hchildren => (children_alloc h kind n).trans hchildren⟩
  rw [content, node_alloc]
  split <;> rfl

theorem putNode_makes (kind : NodeKind) (anchor : Option NodeId) (m : Mutation) :
    Makes kind parent h (h.putNode kind parent anchor m) := by
  have hput : ∀ {f : Node → Node} {mutation : Mutation}, (∀ node, (f node).content = node.content) →
      Makes kind parent h ((((((h.alloc kind).record m).detach h.next).modify parent f).setParent h.next
        (some parent)).record mutation) := fun hf =>
    ((((alloc_makes h parent kind).trans ((SameContents.record _ m).trans (.detach _ h.next))).modify hf).trans
      (.setParent _ h.next (some parent))).trans (.record _ _)
  cases anchor with
  | none => exact hput (f := fun node => { node with children := node.children ++ [h.next] }) fun _ => rfl
  | some a => exact hput (f := fun node => { node with children := placeBefore h.next a node.children }) fun _ => rfl

theorem insertRaw_makes (markup : String) (anchor : Option NodeId) :
    Makes (.raw markup) parent h (h.insertRaw parent markup anchor).2 := by
  rw [insertRaw]
  refine Makes.trans ?_ ((SameContents.setParent _ h.next (some parent)).trans (.record _ _))
  exact (alloc_makes h parent (.raw markup)).modify fun _ => rfl

end Makes

/-- A call that writes touches the place that it is for. -/
theorem write_touches {h : Host} {n : NodeId} (hn : n.index < h.count) (w : Write) :
    Touches n (fun π => if π = w.place then some w.value else (h.content n).held π) h (h.write n w) := by
  have hmodify : ∀ mutation, Touches n (fun π => if π = w.place then some w.value else (h.content n).held π) h
      ((h.modifyContent n (·.enter w)).record mutation) := fun mutation =>
    .modify hn (fun c => c.kind_enter w) ((h.content n).held_enter w)
  cases w <;> exact hmodify _

theorem erase_touches {h : Host} {n : NodeId} (hn : n.index < h.count) (place : Place) :
    Touches n (fun π => if π = place then none else (h.content n).held π) h (h.erase n place) := by
  have hmodify : ∀ mutation, Touches n (fun π => if π = place then none else (h.content n).held π) h
      ((h.modifyContent n (·.leave place)).record mutation) := fun mutation =>
    .modify hn (fun c => c.kind_leave place) ((h.content n).held_leave place)
  cases place <;> exact hmodify _

/-- Where something has been erased nothing is held, whether the node is there or not. -/
theorem held_erase (h : Host) (n : NodeId) (π : Place) : ((h.erase n π).content n).held π = none := by
  by_cases hn : n.index < h.count
  · rw [(erase_touches hn π).held, if_pos rfl]
  · have hmodify : ∀ (g : Content → Content) (m : Mutation), (((h.modifyContent n g).record m).content n).held π = none := by
      intro g m
      rw [content, node_record, modifyContent, node_modify, if_neg fun hand => hn hand.2, node,
        Array.getD_eq_getD_getElem?, Array.getElem?_eq_none (Nat.le_of_not_lt hn)]
      exact Content.held_new _ π
    cases π <;> exact hmodify _ _

end Host

/-- A place and what is put there. -/
def Write.entry (w : Write) : Place × Scalar := (w.place, w.value)

/-- What entries that are put one after the other leave at a place. -/
def lastAt : List (Place × Scalar) → Place → Option Scalar
  | [], _ => none
  | entry :: entries, π => (lastAt entries π).or (if π = entry.1 then some entry.2 else none)

theorem lastAt_append (entries entries' : List (Place × Scalar)) (π : Place) :
    lastAt (entries ++ entries') π = (lastAt entries' π).or (lastAt entries π) := by
  induction entries with
  | nil => simp [lastAt]
  | cons entry entries ih => rw [List.cons_append, lastAt, lastAt, ih, Option.or_assoc]

theorem lastAt_eq_none {entries : List (Place × Scalar)} {π : Place} :
    lastAt entries π = none ↔ π ∉ entries.map (·.1) := by
  induction entries with
  | nil => simp [lastAt]
  | cons entry entries ih =>
      rw [lastAt, Option.or_eq_none_iff, ih, List.map_cons, List.mem_cons]
      by_cases hπ : π = entry.1 <;> simp [hπ]

/-- What comes to stand at a place where something else stood before. What was put there goes if nothing new
is put, and what stands there for other reasons stays. -/
def overlay (old new held : Option Scalar) : Option Scalar := new.or (if old.isSome then none else held)

namespace Host

variable {h : Host} {n : NodeId}

theorem writeAll_touches (hn : n.index < h.count) (ws : List Write) :
    Touches n (fun π => overlay none (lastAt (ws.map Write.entry) π) ((h.content n).held π)) h
      (h.writeAll n ws) := by
  induction ws generalizing h with
  | nil => exact .none h n
  | cons w ws ih =>
      have hwrite := write_touches hn w
      have hrest := hwrite.trans (ih (hwrite.count ▸ hn))
      refine ⟨hrest.count, hrest.others, hrest.kind, fun π => (hrest.held π).trans ?_, hrest.childless⟩
      rw [hwrite.held, List.map_cons, lastAt, overlay, overlay, Option.or_assoc]
      by_cases hπ : π = w.place <;> simp [Write.entry, hπ]

theorem eraseAll_touches (hn : n.index < h.count) (places : List Place) :
    Touches n (fun π => if π ∈ places then none else (h.content n).held π) h
      (places.foldl (fun h place => h.erase n place) h) := by
  induction places generalizing h with
  | nil => exact ⟨rfl, fun _ _ => rfl, rfl, fun π => by simp, fun _ hm => hm⟩
  | cons place places ih =>
      have herase := erase_touches hn place
      have hrest := herase.trans (ih (herase.count ▸ hn))
      refine ⟨hrest.count, hrest.others, hrest.kind, fun π => (hrest.held π).trans ?_, hrest.childless⟩
      rw [herase.held]
      by_cases hπ : π = place <;> simp [hπ]

end Host

end Parlance
