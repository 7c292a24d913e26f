import Parlance.Proofs.Host.Walks

/-! Links and lists in accord. Every link of a host is kept in two places, and every call that moves a node writes both.
Placing takes a node off the parent that it has; removing takes it off the parent that is named. So the two places stay
in accord exactly as long as nodes are removed from the parents that they have, or have none. -/

namespace Parlance.Host

/-- A call that makes, places or removes nodes, or writes a text. -/
inductive TreeCall where
  | createElement (tag : String)
  | createText (value : String)
  | createMarker (label : String)
  | append (parent child : NodeId)
  | insertBefore (parent n reference : NodeId)
  | remove (parent child : NodeId)
  | insertRaw (parent : NodeId) (markup : String) (anchor : Option NodeId)
  | setText (n : NodeId) (value : String)

/-- What a call makes of a host. -/
def does (h : Host) : TreeCall → Host
  | .createElement tag => (h.createElement tag).2
  | .createText value => (h.createText value).2
  | .createMarker label => (h.createMarker label).2
  | .append parent child => h.appendChild parent child
  | .insertBefore parent n reference => h.insertBefore parent n reference
  | .remove parent child => h.removeChild parent child
  | .insertRaw parent markup anchor => (h.insertRaw parent markup anchor).2
  | .setText n value => h.setText n value

/-- What calls make of a host, one after the other. -/
def doAll (h : Host) (calls : List TreeCall) : Host := calls.foldl does h

/-- A node may be placed under another if it is not the root, and the other is neither the node itself nor one of its
descendants. -/
def Placeable (h : Host) (parent n : NodeId) : Prop := n ≠ root ∧ parent ≠ n ∧ parent ∉ h.descendants n

/-- A call that names nodes of the host only, and places no node where it may not be placed. -/
def Admits (h : Host) : TreeCall → Prop
  | .append parent child => h.has parent ∧ h.has child ∧ h.Placeable parent child
  | .insertBefore parent n reference => h.has parent ∧ h.has n ∧ h.has reference ∧ h.Placeable parent n
  | .remove parent child => h.has parent ∧ h.has child
  | .insertRaw parent _ anchor => h.has parent ∧ ∀ a ∈ anchor, h.has a
  | .setText n _ => h.has n
  | _ => True

/-- A call that removes a node names the parent that the node has, or the node has none. -/
def Owns (h : Host) : TreeCall → Prop
  | .remove parent child => h.parent child = some parent ∨ h.parent child = none
  | _ => True

/-- Something holds of every call, in the host that receives it. -/
def Throughout (P : Host → TreeCall → Prop) : Host → List TreeCall → Prop
  | _, [] => True
  | h, call :: calls => P h call ∧ Throughout P (h.does call) calls

instance (h : Host) (p n : NodeId) : Decidable (h.Placeable p n) := inferInstanceAs (Decidable (_ ∧ _ ∧ _))

instance (h : Host) : DecidablePred h.Admits
  | .append .. => inferInstanceAs (Decidable (_ ∧ _ ∧ _))
  | .insertBefore .. => inferInstanceAs (Decidable (_ ∧ _ ∧ _ ∧ _))
  | .remove .. => inferInstanceAs (Decidable (_ ∧ _))
  | .insertRaw parent _ anchor => inferInstanceAs (Decidable (h.has parent = true ∧ ∀ a ∈ anchor, h.has a = true))
  | .setText n _ => inferInstanceAs (Decidable (h.has n = true))
  | .createElement _ | .createText _ | .createMarker _ => isTrue trivial

instance (h : Host) : DecidablePred h.Owns
  | .remove .. => inferInstanceAs (Decidable (_ ∨ _))
  | .append .. | .insertBefore .. | .insertRaw .. | .setText .. => isTrue trivial
  | .createElement _ | .createText _ | .createMarker _ => isTrue trivial

instance throughoutDecidable (P : Host → TreeCall → Prop) [∀ h, DecidablePred (P h)] :
    ∀ h calls, Decidable (Throughout P h calls)
  | _, [] => isTrue trivial
  | h, call :: calls =>
      have := throughoutDecidable P (h.does call) calls
      inferInstanceAs (Decidable (P h call ∧ Throughout P (h.does call) calls))

/-- The two sides of every link agree: a node is listed by its parent, once, and nowhere else, and what is attached
is the root and what is listed under it. -/
structure Accord (h : Host) : Prop where
  links : ∀ p c, c ∈ h.children p ↔ h.parent c = some p
  once : ∀ p, (h.children p).Nodup
  alone : ∀ p q c, c ∈ h.children p → c ∈ h.children q → p = q
  attached : ∀ c, h.isAttached c = true ↔ c = root ∨ c ∈ h.descendants root

variable {h h' : Host} {n p : NodeId} {anchor : Option NodeId}

theorem Forest.accord (hforest : Forest h) : h.Accord where
  links := hforest.links
  once := hforest.nodup
  alone p q c hp hq := by
    rw [hforest.links] at hp hq
    exact Option.some.inj (hp.symm.trans hq)
  attached _ := hforest.isAttached_iff_mem

section Moving

theorem detach_of_free (hfree : h.parent n = none) : h.detach n = h.setParent n none := by rw [detach, hfree]

/-- Unlinking is removing from the parent that a node has. -/
theorem detach_of_parent (hp : h.parent n = some p) : (h.detach n).record (.remove p n) = h.removeChild p n := by
  rw [removeChild, detach, hp]

theorem parent_detach (h : Host) (n m : NodeId) : (h.detach n).parent m = if m = n then none else h.parent m := by
  cases hp : h.parent n with
  | some p =>
      have hdrops : (h.removeChild p n).parent m = _ := (Drops.one n h).parent m
      rw [← detach_of_parent hp, (SameLinks.record _ _).parent] at hdrops
      simpa only [List.mem_singleton] using hdrops
  | none =>
      rw [detach_of_free hp, Host.parent, setParent, node_modify]
      by_cases hm : m = n
      · subst hm
        by_cases hlt : m.index < h.count
        · rw [if_pos ⟨rfl, hlt⟩, if_pos rfl]
        · rw [if_neg fun hand => hlt hand.2, if_pos rfl]
          exact hp
      · rw [if_neg fun hand => hm hand.1, if_neg hm]
        rfl

theorem detach_detach (h : Host) (n : NodeId) : (h.detach n).detach n = h.detach n := by
  have hfree : (h.detach n).parent n = none := by rw [parent_detach, if_pos rfl]
  have htwice : ∀ h₁ : Host, (h₁.setParent n none).setParent n none = h₁.setParent n none := by
    intro h₁
    simp only [setParent, modify]
    congr 1
    apply Array.ext
    · simp only [Array.size_modify]
    · intro i _ _
      simp only [Array.getElem_modify]
      split <;> rfl
  rw [detach_of_free hfree, detach]
  exact htwice _

theorem place_detach (h : Host) (p n : NodeId) (anchor : Option NodeId) :
    (h.detach n).place p n anchor = h.place p n anchor := by
  cases anchor with
  | none => rw [place, place, appendChild, appendChild, detach_detach]
  | some a => rw [place, place, insertBefore, insertBefore, detach_detach]

theorem count_detach (h : Host) (n : NodeId) : (h.detach n).count = h.count := by
  rw [detach]
  split <;> simp [setParent, dropChild]

namespace Forest

/-- A node is unlinked. -/
theorem detach (hforest : Forest h) (n : NodeId) : Forest (h.detach n) := by
  cases hp : h.parent n with
  | some p =>
      have hremoved : Forest (h.removeChild p n) := hforest.drops (by simp [hp]) (Drops.one n h)
      rw [← detach_of_parent hp] at hremoved
      exact hremoved.quiet ⟨rfl, fun _ => rfl⟩ fun _ => rfl
  | none =>
      refine hforest.quiet (detach_sameTree hp) fun m => ?_
      rw [parent_detach]
      split
      next hm => rw [hm, hp]
      next => rfl

/-- A node is made. -/
theorem alloc (hforest : Forest h) (kind : NodeKind) : Forest (h.alloc kind) := by
  refine ⟨fun p c => ?_, fun p => ?_, fun n hcycle => hforest.acyclic n ?_⟩
  · rw [children_alloc, parent_alloc, hforest.links]
  · rw [children_alloc]
    exact hforest.nodup p
  · simpa only [parent_alloc] using hcycle

/-- A node is put under a node that is not under it, wherever it stood. -/
theorem place (hforest : Forest h) (hn : n.index < h.count) (hp : p.index < h.count) (hpn : ¬ h.AtOrBelow n p) :
    Forest (h.place p n anchor) := by
  have hfree : (h.detach n).parent n = none := by rw [parent_detach, if_pos rfl]
  rw [← count_detach h n] at hn hp
  rw [← place_detach]
  refine (hforest.detach n).puts hfree (fun hle => hpn ?_) (children_place hfree hp) fun m => (links_place hfree hn m).1
  refine Relation.ReflTransGen.mono (fun a c hlink => ?_) n p hle
  rw [parent_detach] at hlink
  split at hlink
  next => cases hlink
  next => exact hlink

end Forest

end Moving

/-- What is admitted keeps a forest, if what is removed is removed from its own parent. -/
theorem Forest.does (hforest : Forest h) {call : TreeCall} (hadmits : h.Admits call) (howns : h.Owns call) :
    Forest (h.does call) := by
  have hrecord : ∀ {h₁ : Host} (m : Mutation), Forest h₁ → Forest (h₁.record m) := fun m hforest =>
    hforest.quiet (.record _ m) fun _ => rfl
  have hplace : ∀ {p n : NodeId} (anchor : Option NodeId), h.has p = true → h.has n = true → h.Placeable p n →
      Forest (h.place p n anchor) := by
    intro p n anchor hp hn hplaceable
    obtain ⟨-, hne, hmem⟩ := hplaceable
    rw [hforest.mem_descendants] at hmem
    refine hforest.place (has_iff.mp hn) (has_iff.mp hp) fun hle => ?_
    rcases atOrBelow_iff.mp hle with heq | hbelow
    · exact hne heq
    · exact hmem hbelow
  cases call with
  | createElement tag => exact hrecord _ (hforest.alloc _)
  | createText value => exact hrecord _ (hforest.alloc _)
  | createMarker label => exact hrecord _ (hforest.alloc _)
  | append parent child => exact hplace none hadmits.1 hadmits.2.1 hadmits.2.2
  | insertBefore parent n reference => exact hplace (some reference) hadmits.1 hadmits.2.1 hadmits.2.2.2
  | remove parent child =>
      refine hforest.drops (fun m hm => ?_) (Drops.one child h)
      rw [List.mem_singleton.mp hm]
      exact howns
  | insertRaw parent markup anchor =>
      have hparent := has_iff.mp hadmits.1
      exact hforest.adds hparent (insertRaw_adds markup hparent)
  | setText n value => exact hforest.quiet (.entry h n _ _) (SameLinks.entry h n _ _).parent

/-- Calls that are admitted keep a forest, if what is removed is removed from its own parent. -/
theorem Forest.doAll (hforest : Forest h) {calls : List TreeCall} (hadmits : Throughout Admits h calls)
    (howns : Throughout Owns h calls) : Forest (h.doAll calls) := by
  induction calls generalizing h with
  | nil => exact hforest
  | cons call calls ih => exact ih (hforest.does hadmits.1 howns.1) hadmits.2 howns.2

/-- A node that is removed from another parent than its own is listed still, and is under no parent. -/
theorem owns_of_accord {call : TreeCall} (hbefore : h.Accord) (hafter : (h.does call).Accord) : h.Owns call := by
  cases call with
  | remove p c =>
      cases hc : h.parent c with
      | none => exact .inr hc
      | some q =>
          by_cases hq : q = p
          · exact .inl (hc.trans (congrArg some hq))
          · have hmem : c ∈ (h.removeChild p c).children q := by
              rw [children_removeChild, if_neg hq, hbefore.links, hc]
            have hlisted := (hafter.links q c).mp hmem
            rw [does, (Drops.one c h).parent, if_pos (List.mem_singleton.mpr rfl)] at hlisted
            cases hlisted
  | _ => trivial

/-- The two sides of every link agree after every call exactly if no call removes a node from another parent than its
own. The calls may be of any kind and in any order, as long as they name nodes of the host, never place the root, and
place no node under itself or one of its descendants. -/
theorem accord_iff_owns (calls : List TreeCall) (hadmits : Throughout Admits Host.new calls) :
    (∀ i, (Host.new.doAll (calls.take i)).Accord) ↔ Throughout Owns Host.new calls := by
  have hforest := forest_new
  revert hadmits hforest
  generalize Host.new = h
  intro hadmits hforest
  induction calls generalizing h with
  | nil => exact ⟨fun _ => trivial, fun _ i => by simpa [doAll] using hforest.accord⟩
  | cons call calls ih =>
      obtain ⟨hcall, hrest⟩ := hadmits
      constructor
      · intro haccord
        have howns : h.Owns call := owns_of_accord (haccord 0) (haccord 1)
        exact ⟨howns, (ih _ hrest (hforest.does hcall howns)).mp fun i => haccord (i + 1)⟩
      · rintro ⟨howns, hrest'⟩ (_ | i)
        · exact hforest.accord
        · exact (ih _ hrest (hforest.does hcall howns)).mpr hrest' i

/-- A list is built and mixed up: a node is put before itself, moved away, and removed twice from where it was last. -/
theorem accord_iff_owns_moved : ∃ calls : List TreeCall, Throughout Admits Host.new calls ∧
    (Host.new.doAll calls).children ⟨1⟩ = [⟨5⟩, ⟨4⟩] ∧ ∀ i, (Host.new.doAll (calls.take i)).Accord := by
  refine ⟨[.createElement "ul", .createElement "li", .createText "one", .createMarker "each", .append root ⟨1⟩,
    .append ⟨1⟩ ⟨2⟩, .append ⟨2⟩ ⟨3⟩, .insertBefore ⟨1⟩ ⟨4⟩ ⟨3⟩, .insertBefore ⟨1⟩ ⟨2⟩ ⟨2⟩,
    .insertRaw ⟨1⟩ "<hr>" (some ⟨4⟩), .setText ⟨3⟩ "two", .insertBefore root ⟨2⟩ ⟨1⟩, .remove root ⟨2⟩,
    .remove ⟨1⟩ ⟨2⟩], by decide +kernel, by decide +kernel, ?_⟩
  exact (accord_iff_owns _ (by decide +kernel)).mpr (by decide +kernel)

/-- A node that stands under the root is removed from another node. The root lists it still, but it has no parent, and
is not attached. -/
theorem accord_lost : ∃ calls : List TreeCall, Throughout Admits Host.new calls ∧
    ⟨1⟩ ∈ (Host.new.doAll calls).children root ∧ (Host.new.doAll calls).parent ⟨1⟩ = none ∧
    ⟨1⟩ ∈ (Host.new.doAll calls).descendants root ∧ (Host.new.doAll calls).isAttached ⟨1⟩ = false ∧
    ¬ (Host.new.doAll calls).Accord := by
  refine ⟨[.createElement "ul", .createElement "ol", .append root ⟨1⟩, .remove ⟨2⟩ ⟨1⟩], by decide +kernel,
    by decide +kernel, by decide +kernel, by decide +kernel, by decide +kernel, fun haccord => ?_⟩
  have hlink := (haccord.links root ⟨1⟩).mp (by decide +kernel)
  exact absurd hlink (by decide +kernel)

end Parlance.Host
