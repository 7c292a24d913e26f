import Parlance.Proofs.Engine.Detaching
import Parlance.Proofs.Engine.Growth
import Parlance.Proofs.Engine.Painting
import Parlance.Proofs.Engine.Rewriting

/-! The repaints that passes are put together from: entries laid over others, texts and markup replaced, elements
made or gone into, and whole outputs removed. -/

namespace Parlance

variable {e : Engine} {p n : NodeId} {h h₁ h' : Host} {lexem lexem' : Lexem} {later : List Row}

namespace Depicts

variable {lexems lexems' : List Lexem} {slots slots' : List Slot} {nodes : List NodeId} {slot : Slot}

theorem of_plain (hslot : slot.Plain) (hparts : slot.parts = []) (hdepicts : Depicts e h [lexem] [slot] nodes) :
    nodes = slot.ends ∧ slot.ends.map h.content = (e.endKinds lexem slot).map Content.new := by
  cases hdepicts with
  | element => exact hslot.elim
  | plain _ hends hinner houter =>
      rw [hparts] at hinner
      cases hinner
      cases houter
      exact ⟨by simp, hends⟩

theorem leaf (hslot : slot.Plain) (hparts : slot.parts = [])
    (hends : slot.ends.map h.content = (e.endKinds lexem slot).map Content.new) :
    Depicts e h [lexem] [slot] slot.ends := by
  have hinner : Depicts e h (lexemsOf slot.parts) (slotsOf slot.parts) [] := by
    rw [hparts]
    exact .nil
  have hwhole := Depicts.plain hslot hends hinner (.nil : Depicts e h [] [] [])
  rwa [List.nil_append, List.append_nil] at hwhole

end Depicts

namespace Engine

theorem shownAt_attribute (π : Place) : shownAt (e.rowsOfSlots [lexem] [.attribute]) π = lastAt (e.entries lexem) π := by
  rw [shownAt]
  simp only [rowsOfSlots, slotRows, List.append_nil]
  rw [entriesOf_map]

/-- Only words that put entries put any beside those of their parts. -/
theorem ownRows_silent {slot : Slot} (hentries : slot ≠ .attribute) : e.Silent lexem slot := by
  cases slot with
  | «attribute» => exact absurd rfl hentries
  | _ => rfl

theorem endKinds_attribute : e.endKinds lexem .attribute = [] := by
  rw [endKinds, ownRows, List.filterMap_map]
  exact List.filterMap_eq_nil_iff.mpr fun _ _ => rfl

theorem entries_eq {i : Instruction} {ws : List Write} (hword : e.instruction? lexem = some i)
    (hwrites : lexem.writes i = some ws) : e.entries lexem = ws.map Write.entry := by
  rw [entries, hword, Option.bind_some, hwrites, Option.getD_some]

end Engine

/-- A word that puts entries has no nodes. -/
theorem Depicts.attribute : Depicts e h [lexem] [.attribute] [] := by
  have hplain : (Slot.attribute).Plain := trivial
  exact .leaf hplain rfl (by rw [Engine.endKinds_attribute]; rfl)

namespace Repaint

/-- Entries are laid over those that the word before had put. -/
theorem entries (hrewrites : p.index < h.count → Host.Rewrites p (e.entries lexem) (e.entries lexem') h h') :
    Repaint e p [] h [lexem] [.attribute] h' [lexem'] [.attribute] := by
  intro nodes hdepicts hground
  have hplain : (Slot.attribute).Plain := trivial
  obtain ⟨rfl, -⟩ := hdepicts.of_plain hplain rfl
  have hover := hrewrites hground.parent
  refine ⟨[], .attribute, hground.grow (Nat.le_of_eq hover.count.symm), Nat.le_of_eq hover.count.symm,
    by simp, hover.kind, fun n _ hne _ => hover.others n hne, by simp, fun π _ hagree => ?_, fun _ => hover.roomy⟩
  rw [Engine.shownAt_attribute, Engine.shownAt_attribute] at hagree ⊢
  exact hover.held π hagree

/-- Entries are put. -/
theorem put (htouches : p.index < h.count → Host.Touches p (fun π => overlay none (lastAt (e.entries lexem) π)
    ((h.content p).held π)) h h') : Repaint e p [] h [] [] h' [lexem] [.attribute] := by
  intro nodes hdepicts hground
  cases hdepicts
  have hput := htouches hground.parent
  refine ⟨[], .attribute, hground.grow (Nat.le_of_eq hput.count.symm), Nat.le_of_eq hput.count.symm,
    by simp, hput.kind, fun n _ hne _ => hput.others n hne, by simp, fun π _ _ => ?_, fun _ => hput.roomy⟩
  rw [Engine.shownAt_attribute, hput.held]
  rfl

/-- A text is set. -/
theorem text : Repaint e p later h [lexem] [.text n] (h.setText n (lexem'.arg 0).toText) [lexem'] [.text n] := by
  intro nodes hdepicts hground
  have hplain : (Slot.text n).Plain := trivial
  obtain ⟨rfl, hends⟩ := hdepicts.of_plain hplain rfl
  have hn : n.index < h.count := hground.made n (by simp [Slot.ends])
  have hcontent : ∀ m, (h.setText n (lexem'.arg 0).toText).content m =
      if m = n then (fun c : Content => { c with kind := .text (lexem'.arg 0).toText }) (h.content m)
        else h.content m :=
    Host.content_modifyContent h (fun c => { c with kind := .text (lexem'.arg 0).toText }) hn
  have hcount : (h.setText n (lexem'.arg 0).toText).count = h.count := Host.count_modify h n _
  have hold : h.content n = Content.new (.text (lexem.arg 0).toText) := by
    simpa [Slot.ends, Engine.endKinds, Engine.ownRows, Row.kind?] using hends
  have hwhole : Depicts e (h.setText n (lexem'.arg 0).toText) [lexem'] [.text n] (Slot.ends (.text n)) := by
    refine .leaf hplain rfl ?_
    simp [Slot.ends, Engine.endKinds, Engine.ownRows, Row.kind?, hcontent, hold, Content.new]
  have hne : p ≠ n := fun heq => hground.ne_parent (n := n) (by simp [Slot.ends]) heq.symm
  have hp : (h.setText n (lexem'.arg 0).toText).content p = h.content p := by rw [hcontent, if_neg hne]
  refine ⟨_, hwhole, hground.grow (Nat.le_of_eq hcount.symm), Nat.le_of_eq hcount.symm, fun _ hn => .inl hn,
    by rw [hp], fun m _ _ hnot => ?_, fun π _ => by rw [hp], fun π _ _ => ?_, fun _ hroomy m hk hm => ?_⟩
  · rw [hcontent, if_neg]
    rintro rfl
    exact hnot (by simp [Slot.ends])
  · rw [hp]
    simp [Engine.rowsOfSlots, Engine.slotRows, shownAt, entriesOf, lastAt, overlay]
  · have htree : Host.SameTree h (h.setText n (lexem'.arg 0).toText) := .entry h n _ _
    rw [htree.children]
    refine hroomy m hk ?_
    by_cases heq : m = n
    · rw [heq, hold]
      rfl
    · rwa [hcontent, if_neg heq] at hm

/-- Markup is taken away and other markup is put before the same marker. -/
theorem markup {witness m : NodeId} {nodes : List NodeId} (hsame : Host.SameContents h h₁)
    (hmakes : Host.Makes (.raw (lexem'.arg 0).toText) p h₁ h') (hm : m = h₁.next) :
    Repaint e p later h [lexem] [.raw witness nodes] h' [lexem'] [.raw witness [m]] := by
  intro all hdepicts hground
  subst hm
  have hplain : ∀ nodes : List NodeId, (Slot.raw witness nodes).Plain := fun _ => trivial
  obtain ⟨rfl, hends⟩ := hdepicts.of_plain (hplain nodes) rfl
  have hcount : h'.count = h.count + 1 := hmakes.count.trans (congrArg (· + 1) hsame.count)
  have hnext : h₁.next.index = h.count := by rw [Host.next_index, hsame.count]
  have hkept : ∀ k, k.index < h.count → h'.content k = h.content k := fun k hk => by
    rw [hmakes.content, if_neg, hsame.content]
    rintro rfl
    omega
  have hwitness : witness.index < h.count := hground.made witness (by simp [Slot.ends])
  have hwhole : Depicts e h' [lexem'] [.raw witness [h₁.next]] (Slot.ends (.raw witness [h₁.next])) := by
    refine .leaf (hplain _) rfl ?_
    have hmarker : h.content witness = Content.new (.marker (e.markerText "html")) := by
      have hlast := congrArg List.getLast? hends
      simpa [Slot.ends, Engine.endKinds, Engine.ownRows, Row.kind?] using hlast
    simp [Slot.ends, Engine.endKinds, Engine.ownRows, Row.kind?, hmakes.content h₁.next, hkept witness hwitness,
      hmarker]
  have hp := hground.parent
  have hne : p ≠ witness := fun heq => hground.ne_parent (n := witness) (by simp [Slot.ends]) heq.symm
  refine ⟨_, hwhole, ⟨?_, fun k hk => ?_⟩, by omega, fun k hk => ?_, by rw [hkept p hp], fun k hk _ _ => hkept k hk,
    fun π _ => by rw [hkept p hp], fun π _ _ => ?_, fun hparent hroomy => ?_⟩
  · have hfresh : ∀ k : NodeId, k.index < h.count → h₁.next ≠ k := fun k hk heq => by
      rw [heq] at hnext
      omega
    simp [Slot.ends, hne, (hfresh p hp).symm, hfresh witness hwitness]
  · simp only [Slot.ends, List.cons_append, List.nil_append, List.mem_cons, List.not_mem_nil, or_false] at hk
    rcases hk with rfl | rfl | rfl <;> omega
  · simp only [Slot.ends, List.cons_append, List.nil_append, List.mem_cons, List.not_mem_nil, or_false] at hk
    rcases hk with rfl | rfl
    · exact .inr (Nat.le_of_eq hnext.symm)
    · exact .inl (by simp [Slot.ends])
  · rw [hkept p hp]
    simp [Engine.rowsOfSlots, Engine.slotRows, shownAt, entriesOf, lastAt, overlay]
  · exact (Adds.one hmakes).roomy (hsame.count ▸ hp) (fun hk => by rw [hsame.content, hparent hk]) (hsame.roomy hroomy)

/-- What is inside an element is repainted. -/
theorem element {kids kids' : List Rendered} (htag : (lexem'.arg 0).toText = (lexem.arg 0).toText)
    (hpaired : ∀ r ∈ kids, r.Paired) (hpaired' : ∀ r ∈ kids', r.Paired)
    (hkids : Repaint e n [] h (lexemsOf kids) (slotsOf kids) h' (lexemsOf kids') (slotsOf kids')) :
    Repaint e p later h [lexem] [.element n kids] h' [lexem'] [.element n kids'] := by
  intro nodes hdepicts hground
  cases hdepicts with
  | plain hslot => exact hslot.elim
  | @element _ _ _ _ _ nodes _ hkind hheld hinner houter =>
  cases houter
  rw [List.append_nil] at hground ⊢
  have hnodup := hground.nodup
  rw [List.nodup_cons, List.mem_cons, not_or] at hnodup
  obtain ⟨⟨hne, hnot⟩, hnodup⟩ := hnodup
  have hnGround : Ground h (n :: nodes) := ⟨hnodup, fun m hm => hground.made m (List.mem_cons_of_mem _ hm)⟩
  obtain ⟨nodes', hpainted⟩ := hkids nodes hinner hnGround
  have hp : h'.content p = h.content p := hpainted.content p hground.parent hne hnot
  have hwhole : Depicts e h' [lexem'] [.element n kids'] (n :: nodes' ++ []) := by
    refine .element (by rw [hpainted.kind, hkind, htag]) (fun π => ?_) hpainted.depicts .nil
    have hover := hpainted.held π (by simp) fun _ _ => by rw [hheld, Engine.rowsOfAll_eq hpaired]
    rw [hover, hheld, Engine.rowsOfAll_eq hpaired, Engine.rowsOfAll_eq hpaired', overlay_self]
  rw [List.append_nil] at hwhole
  have hold : ∀ m ∈ nodes', m ≠ p := fun m hm heq => by
    subst heq
    rcases hpainted.fresh m hm with hmem | hnew
    · exact hnot hmem
    · exact absurd hground.parent (Nat.not_lt.mpr hnew)
  refine ⟨n :: nodes', hwhole, ⟨?_, fun m hm => ?_⟩, hpainted.count, fun m hm => ?_, by rw [hp],
    fun m hm _ hmem => ?_, fun π _ => by rw [hp], fun π _ _ => ?_, fun _ => hpainted.roomy fun _ => by rw [hkind]; rfl⟩
  · refine List.nodup_cons.mpr ⟨fun hmem => ?_, hpainted.ground.nodup⟩
    rcases List.mem_cons.mp hmem with heq | hmem
    · exact hne heq
    · exact hold p hmem rfl
  · rcases List.mem_cons.mp hm with rfl | hm
    · exact Nat.lt_of_lt_of_le hground.parent hpainted.count
    · exact hpainted.ground.made m hm
  · rcases List.mem_cons.mp hm with rfl | hm
    · exact .inl List.mem_cons_self
    · exact (hpainted.fresh m hm).imp_left (List.mem_cons_of_mem _)
  · rw [List.mem_cons, not_or] at hmem
    exact hpainted.content m hm hmem.1 hmem.2
  · rw [hp, Engine.shownAt_element, Engine.shownAt_element]
    rfl

/-- An element is made and filled. -/
theorem bornElement {tag : String} {kids : List Rendered} (htag : tag = (lexem.arg 0).toText)
    (hmakes : Host.Makes (.element tag) p h h₁) (hpaired : ∀ r ∈ kids, r.Paired)
    (hkids : Repaint e h.next [] h₁ [] [] h' (lexemsOf kids) (slotsOf kids)) :
    Repaint e p later h [] [] h' [lexem] [.element h.next kids] := by
  intro nodes hdepicts hground
  cases hdepicts
  have hcount := hmakes.count
  have hp := hground.parent
  have hnew : h₁.content h.next = Content.new (.element tag) := by rw [hmakes.content, if_pos rfl]
  have hold : ∀ m, m.index < h.count → h₁.content m = h.content m ∧ m ≠ h.next := fun m hm => by
    have hne : m ≠ h.next := by
      rintro rfl
      exact absurd hm (Nat.lt_irrefl _)
    exact ⟨by rw [hmakes.content, if_neg hne], hne⟩
  have hnextGround : Ground h₁ (h.next :: []) := ⟨by simp, by simp [hcount]⟩
  obtain ⟨nodes', hpainted⟩ := hkids [] .nil hnextGround
  have hkept : ∀ m, m.index < h.count → h'.content m = h.content m := fun m hm => by
    rw [hpainted.content m (by omega) (hold m hm).2 (by simp), (hold m hm).1]
  have hlate : ∀ m ∈ nodes', h.count ≤ m.index := fun m hm => by
    rcases hpainted.fresh m hm with hmem | hfresh
    · simp at hmem
    · omega
  have hwhole : Depicts e h' [lexem] [.element h.next kids] (h.next :: nodes' ++ []) := by
    refine .element (by rw [hpainted.kind, hnew, htag]; rfl) (fun π => ?_) hpainted.depicts .nil
    have hover := hpainted.held π (by simp) fun hput => by simp [Engine.rowsOfSlots] at hput
    rw [hover, hnew, Content.held_new, Engine.rowsOfAll_eq hpaired]
    simp [overlay, Engine.rowsOfSlots]
  rw [List.append_nil] at hwhole
  have hgrow := hpainted.count
  refine ⟨h.next :: nodes', hwhole, ⟨?_, fun m hm => ?_⟩, by omega, fun m hm => ?_, by rw [hkept p hp],
    fun m hm _ _ => hkept m hm, fun π _ => by rw [hkept p hp], fun π _ _ => ?_, fun hparent hroomy =>
      hpainted.roomy (fun _ => by rw [hnew]; rfl) ((Adds.one hmakes).roomy hp hparent hroomy)⟩
  · refine List.nodup_cons.mpr ⟨fun hmem => ?_, hpainted.ground.nodup⟩
    rcases List.mem_cons.mp hmem with heq | hmem
    · exact (hold p hp).2 heq
    · exact absurd hp (Nat.not_lt.mpr (hlate p hmem))
  · rcases List.mem_cons.mp hm with rfl | hm
    · omega
    · exact hpainted.ground.made m hm
  · rcases List.mem_cons.mp hm with rfl | hm
    · exact .inr (Nat.le_refl _)
    · exact .inr (hlate m hm)
  · rw [hkept p hp, Engine.shownAt_element]
    simp [overlay, Engine.rowsOfSlots]

end Repaint

section Removal

variable {ω : Type} {b : Behaviour ω} {P : Purity b} {w : ω} {depth : Nat} {within : InstanceId → Host → Host}

/-- A plain slot that puts no entries is detached with its parts, and no content changes besides. -/
theorem Slot.detach_silent {slot : Slot} (lexem : Lexem) (hslot : slot.Plain) (hentries : slot ≠ .attribute) :
    Host.SameContents (detachAll within p h slot.parts) (slot.detach within p lexem h) := by
  cases slot with
  | element | component => exact hslot.elim
  | «attribute» => exact absurd rfl hentries
  | skipped | effect | hook => exact .refl h
  | text node => exact .removeChild h p node
  | listener id => exact .removeListener h p _ id
  | branch witness developed => cases developed <;> exact .removeChild _ p witness
  | each witness items => exact .removeChild _ p witness
  | raw witness nodes =>
      exact (Host.SameContents.foldl (fun h n => .removeChild h p n) h nodes).trans (.removeChild _ p witness)
  | compound r => exact .refl _

variable (within) in
/-- Removing slots erases the entries that they had put on the parent. -/
theorem detachSlots_erases {lexems : List Lexem} {slots : List Slot} (hgrown : Grown P e w depth lexems slots)
    (hp : p.index < h.count) :
    Host.Touches p (fun π => if π ∈ placesOf (e.rowsOfSlots lexems slots) then none else (h.content p).held π) h
      (detachSlots within p h lexems slots) := by
  have hsame : ∀ {h h' : Host}, Host.SameContents h h' → Host.Touches p (h.content p).held h h' := fun hsame =>
    ⟨hsame.count, fun m _ => hsame.content m, by rw [hsame.content], fun π => by rw [hsame.content], hsame.childless⟩
  induction hgrown generalizing h with
  | nil =>
      rw [detachSlots]
      · refine ⟨rfl, fun _ _ => rfl, rfl, fun π => ?_, fun _ hm => hm⟩
        simp [Engine.rowsOfSlots]
      all_goals simp
  | @cons _ lexem slot lexems slots hroot hinner _ ihinner ihouter =>
      rw [detachSlots]
      have hslot : Host.Touches p (fun π => if π ∈ placesOf (e.slotRows lexem slot) then none else
          (h.content p).held π) h (slot.detach within p lexem h) := by
        by_cases hentries : slot = .attribute
        · subst hentries
          cases hroot.fits with
          | @«attribute» i ws _ hword hwrites =>
              have herased := Host.eraseAll_touches hp (ws.map Write.place)
              rw [← clear_erases hword hwrites] at herased
              have hplaces : placesOf (e.slotRows lexem .attribute) = ws.map Write.place := by
                rw [Engine.slotRows, placesOf, entriesOf_map, Engine.entries_eq hword hwrites, List.map_map]
                rfl
              rw [hplaces, Slot.detach]
              exact herased
        by_cases hplain : slot.Plain
        · have hparts := ihinner hp
          rw [← detachAll_eq hroot.paired, ← Engine.rowsOfAll_eq hroot.paired] at hparts
          have hwhole := hparts.trans (hsame (slot.detach_silent lexem hplain hentries))
          refine ⟨hwhole.count, hwhole.others, hwhole.kind, fun π => (hwhole.held π).trans ?_, hwhole.childless⟩
          rw [hparts.held, Engine.slotRows_plain lexem hplain, placesOf_append,
            placesOf, placesOf, Engine.ownRows_silent hentries, List.map_nil, List.append_nil]
        · cases hroot.fits with
          | @element node =>
              have hgone := hsame (Host.SameContents.removeChild h p node)
              refine ⟨hgone.count, hgone.others, hgone.kind, fun π => (hgone.held π).trans ?_, hgone.childless⟩
              simp [Engine.slotRows, placesOf, entriesOf]
          | _ => exact absurd trivial hplain
      have hboth := hslot.trans (ihouter (hslot.count ▸ hp))
      refine ⟨hboth.count, hboth.others, hboth.kind, fun π => (hboth.held π).trans ?_, hboth.childless⟩
      rw [hslot.held, Engine.rowsOfSlots, placesOf_append]
      by_cases hown : π ∈ placesOf (e.slotRows lexem slot) <;> simp [hown]

end Removal

end Parlance
