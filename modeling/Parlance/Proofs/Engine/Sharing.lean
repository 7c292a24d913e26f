import Parlance.Host.Query
import Parlance.Proofs.Engine.Trading

/-! Words that ask for classes of one element. Each word takes off the classes that it no longer asks for and puts
on those that it newly asks for, as if no other word had asked for them. So the element is left with the classes that
are asked for, but for those that a word gives up and no word behind it newly asks for: these are lost, even if
other words go on asking for them. -/

namespace Parlance

open Host

theorem Host.hasClass_iff {h : Host} {n : NodeId} {name : String} :
    h.hasClass n name = true ↔ (h.content n).held (.cssClass name) = some .null := by
  rw [hasClass, Content.held, decide_eq_true_eq]
  split
  · next hmem => exact iff_of_true hmem rfl
  · next hmem => exact iff_of_false hmem (by simp)

namespace Engine

/-- The classes that a word asks for. -/
def requested (e : Engine) (lexem : Lexem) : List String :=
  match e.instruction? lexem with
  | some .cssClass => lexem.presentClass?.toList
  | some .classes => lexem.splitClasses
  | _ => []

/-- A word that asks for classes of its node, one by one or as a text. -/
structure AsksClasses (e : Engine) (lexem : Lexem) : Prop where
  target : e.isTarget lexem.space = true
  args : lexem.args ≠ []
  word : e.instruction? lexem = some .cssClass ∨ e.instruction? lexem = some .classes

/-- A class that a word newly asks for. -/
def Gained (e : Engine) : List Lexem → List Lexem → String → Prop
  | lexem :: lexems, old :: olds, name =>
      (name ∈ e.requested lexem ∧ name ∉ e.requested old) ∨ Gained e lexems olds name
  | _, _, _ => False

/-- A class that a word gives up and no word behind it newly asks for. -/
def Dropped (e : Engine) : List Lexem → List Lexem → String → Prop
  | lexem :: lexems, old :: olds, name =>
      (name ∈ e.requested old ∧ name ∉ e.requested lexem ∧ ¬ e.Gained lexems olds name) ∨ Dropped e lexems olds name
  | _, _, _ => False

variable {e : Engine} {n : NodeId} {lexem old : Lexem} {lexems olds : List Lexem} {name : String}

theorem AsksClasses.inscribes (hasks : e.AsksClasses lexem) :
    e.Inscribes lexem ((e.requested lexem).map Write.cssClass) := by
  refine ⟨hasks.target, hasks.args, ?_⟩
  rcases hasks.word with hword | hword <;> rw [requested, hword] <;> rfl

theorem inscribe_of_ask (hasks : ∀ lexem ∈ lexems, e.AsksClasses lexem) :
    List.Forall₂ e.Inscribes lexems (lexems.map fun lexem => (e.requested lexem).map Write.cssClass) := by
  rw [List.forall₂_map_right_iff, List.forall₂_same]
  exact fun lexem hlexem => (hasks lexem hlexem).inscribes

/-- A word exchanges the classes that it asked for with those that it asks for. -/
theorem amend_touches (hasks : e.AsksClasses lexem) (hcongruent : lexem.isCongruent old = true)
    (hcoherent : lexem.Coherent old) {h : Host} (hn : n.index < h.count) :
    Touches n (exchanged (e.requested lexem) (e.requested old) (h.content n).held) h (e.amend n lexem old h) := by
  have hold := instruction_of_congruent (e := e) hcongruent
  rcases hasks.word with hword | hword <;> rw [hword] at hold
  · simp only [requested, amend, hword, ← hold]
    exact diffClass_touches hn
  · simp only [requested, amend, hword, ← hold]
    exact diffClasses_touches (fun hsame => by
      rw [Lexem.splitClasses, Lexem.splitClasses, hcoherent.toText_eq 0 hsame]) hn

/-- What the words of a sentence leave of a class: it is there if a word has gained it or it was there, and none has
given it up for good. -/
theorem hasClass_amendAll {h : Host} (hasks : ∀ lexem ∈ lexems, e.AsksClasses lexem)
    (hcongruent : Congruent lexems olds) (hcoherent : List.Forall₂ Lexem.Coherent lexems olds)
    (hn : n.index < h.count) :
    (e.amendAll n lexems olds h).hasClass n name = true ↔
      ¬ e.Dropped lexems olds name ∧ (e.Gained lexems olds name ∨ h.hasClass n name = true) := by
  induction hcongruent generalizing h with
  | nil => simp [amendAll, Dropped, Gained]
  | @cons lexem old lexems olds hhead _ ih =>
      obtain ⟨hlexem, hasks⟩ := List.forall_mem_cons.mp hasks
      obtain _ | ⟨hsame, hcoherent⟩ := hcoherent
      have htouches := amend_touches hlexem hhead hsame hn
      have hstep : (e.amend n lexem old h).hasClass n name = true ↔
          (name ∈ e.requested lexem ∧ name ∉ e.requested old) ∨
            (¬ (name ∈ e.requested old ∧ name ∉ e.requested lexem) ∧ h.hasClass n name = true) := by
        rw [hasClass_iff, hasClass_iff, htouches.held, exchanged]
        split
        · next hgained => exact iff_of_true rfl (.inl hgained)
        · next hgained =>
          split
          · next hgiven => exact iff_of_false (by simp) (Or.rec hgained fun h => h.1 hgiven)
          · next hgiven => exact ⟨fun hheld => .inr ⟨hgiven, hheld⟩, Or.rec (fun h => absurd h hgained) (·.2)⟩
      rw [amendAll, ih hasks hcoherent (htouches.count ▸ hn), hstep, Dropped, Gained]
      by_cases hgained : e.Gained lexems olds name <;> by_cases hnew : name ∈ e.requested lexem <;>
        by_cases hold : name ∈ e.requested old <;> simp [hgained, hnew, hold]

/-- Of the classes that were asked for or are newly asked for, those that are not lost are those that are asked for. -/
theorem requested_iff_of_kept (hcongruent : Congruent lexems olds) (hkept : ¬ e.Dropped lexems olds name) :
    (e.Gained lexems olds name ∨ ∃ old ∈ olds, name ∈ e.requested old) ↔
      ∃ lexem ∈ lexems, name ∈ e.requested lexem := by
  induction hcongruent with
  | nil => simp [Gained]
  | @cons lexem old lexems olds _ _ ih =>
      rw [Dropped, not_or] at hkept
      have hrest := ih hkept.2
      simp only [Gained, List.exists_mem_cons_iff]
      constructor
      · rintro ((⟨hnew, -⟩ | hgained) | hold | hold)
        · exact .inl hnew
        · exact .inr (hrest.mp (.inl hgained))
        · -- a word that gives the class up has one behind it that gains it
          by_cases hnew : name ∈ e.requested lexem
          · exact .inl hnew
          · exact .inr (hrest.mp (.inl (by_contra fun hnone => hkept.1 ⟨hold, hnew, hnone⟩)))
        · exact .inr (hrest.mp (.inr hold))
      · rintro (hnew | hlater)
        · by_cases hold : name ∈ e.requested old
          · exact .inr (.inl hold)
          · exact .inl (.inl ⟨hnew, hold⟩)
        · exact (hrest.mpr hlater).imp .inr .inr

/-- Words that ask for what they asked for give nothing up. -/
theorem not_dropped_self : ¬ e.Dropped lexems lexems name := by
  induction lexems with
  | nil => exact id
  | cons lexem lexems ih => exact Or.rec (fun h => h.2.1 h.1) ih

end Engine

open Engine in
/-- An element with words for classes in it, diffed against words of the same kinds, is left with the classes that are
asked for, but for those that a word gives up and no word behind it newly asks for. A fresh render puts all classes on
it that are asked for. -/
theorem classes_shared {ω : Type} {b : Behaviour ω} {e : Engine} {c : Cursor} {depth : Nat} {box box' : Lexem}
    {tag : String} {i i' : Identity} {s s' : Sentence} {outer outer' : Lexicon} {level level' : Level}
    (hbox : e.Boxes box tag i s) (hbox' : e.Boxes box' tag i' s') (hboxes : box'.isCongruent box = true)
    (hidentity : i' = i → s' = s) (hold : ∀ lexem ∈ s.lexems, e.AsksClasses lexem)
    (hasks : ∀ lexem ∈ s'.lexems, e.AsksClasses lexem) (hwords : Congruent s'.lexems s.lexems)
    (hcoherent : List.Forall₂ Lexem.Coherent s'.lexems s.lexems) (σ σ₀ : Stage ω) : ∃ r σ₁ r' σ₂ r₀ σ₃,
    renderWithin b (depth + 2) e c (.new ⟨outer, level, [box]⟩) σ = .ok r σ₁ ∧
    diffWithin b (depth + 2) e c (.new ⟨outer', level', [box']⟩) r σ₁ = .ok r' σ₂ ∧
    renderWithin b (depth + 2) e c (.new ⟨outer', level', [box']⟩) σ₀ = .ok r₀ σ₃ ∧
    (∀ name, σ₃.host.hasClass σ₀.host.next name = true ↔ ∃ lexem ∈ s'.lexems, name ∈ e.requested lexem) ∧
    (∀ name, σ₂.host.hasClass σ.host.next name = true ↔
      (∃ lexem ∈ s'.lexems, name ∈ e.requested lexem) ∧ ¬ e.Dropped s'.lexems s.lexems name) := by
  have hrender : renderWithin b (depth + 2) e c (.new ⟨outer, level, [box]⟩) σ = _ :=
    renderWithin_box hbox (inscribe_of_ask hold)
  have hfresh : renderWithin b (depth + 2) e c (.new ⟨outer', level', [box']⟩) σ₀ = _ :=
    renderWithin_box hbox' (inscribe_of_ask hasks)
  obtain ⟨r', hdiff⟩ : ∃ r', diffWithin b (depth + 2) e c (.new ⟨outer', level', [box']⟩)
      ⟨none, ⟨outer, level, [box]⟩, [.element σ.host.next [inscribed ⟨some i, s⟩]]⟩
      (σ.onHost fun h => (h.putElement c tag).writeAll h.next
        (s.lexems.map fun lexem => (e.requested lexem).map Write.cssClass).flatten) = .ok r' _ :=
    diffWithin_box hbox' hbox hboxes (inscribe_of_ask hasks) (inscribe_of_ask hold) hwords
  have hrendered : ∀ (h : Host) (lexems : List Lexem) (name : String),
      ((h.putElement c tag).writeAll h.next (lexems.map fun lexem =>
        (e.requested lexem).map Write.cssClass).flatten).hasClass h.next name = true ↔
      ∃ lexem ∈ lexems, name ∈ e.requested lexem := by
    intro h lexems name
    have hflatten : (lexems.map fun lexem => (e.requested lexem).map Write.cssClass).flatten =
        (lexems.flatMap e.requested).map Write.cssClass := by rw [List.map_flatMap, List.flatMap_def]
    rw [hasClass_iff, (h.held_written c tag _).2, hflatten, lastAt_classes]
    simp
  refine ⟨_, _, r', _, _, _, hrender, hdiff, hfresh, hrendered σ₀.host s'.lexems, fun name => ?_⟩
  simp only [Stage.onHost_host]
  by_cases hid : i' = i
  · obtain rfl := hidentity hid
    rw [if_pos hid, hrendered]
    exact (and_iff_left not_dropped_self).symm
  · rw [if_neg hid, hasClass_amendAll hasks hwords hcoherent (σ.host.held_written c tag _).1, hrendered, and_comm]
    exact and_congr_left fun hkept => requested_iff_of_kept hwords hkept

/-- Two classes, and a text of some. -/
def Sentence.dressed (first second rest : String) : List (String × List Arg) :=
  [("class", [.str first]), ("class", [.str second, .bool true]), ("classes", [.str rest])]

theorem Sentence.dressed_asks (first second rest : String) :
    ∀ lexem ∈ (Sentence.plain (dressed first second rest)).lexems, Engine.plain.AsksClasses lexem := by
  simp only [plain, dressed, List.map_cons, List.map_nil, List.forall_mem_cons]
  exact ⟨⟨rfl, by simp, .inl rfl⟩, ⟨rfl, by simp, .inl rfl⟩, ⟨rfl, by simp, .inr rfl⟩, by simp⟩

/-- Each word hands a class on to the one before it, which does not arrive. -/
theorem classes_shared_dressed : ∃ r σ₁ r' σ₂ r₀ σ₃,
    Engine.plain.render .inert Host.root (.boxed ⟨1⟩ (Sentence.dressed "a" "b" "c d")) ⟨.new, #[], ()⟩ = .ok r σ₁ ∧
    Engine.plain.diff .inert Host.root (.boxed ⟨2⟩ (Sentence.dressed "b" "c" "d e")) r σ₁ = .ok r' σ₂ ∧
    Engine.plain.render .inert Host.root (.boxed ⟨2⟩ (Sentence.dressed "b" "c" "d e")) ⟨.new, #[], ()⟩ = .ok r₀ σ₃ ∧
    (∀ name, σ₃.host.hasClass ⟨1⟩ name = true ↔ name ∈ ["b", "c", "d", "e"]) ∧
    (∀ name, σ₂.host.hasClass ⟨1⟩ name = true ↔ name ∈ ["d", "e"]) := by
  have hcoherent : List.Forall₂ Lexem.Coherent (Sentence.plain (Sentence.dressed "b" "c" "d e")).lexems
      (Sentence.plain (Sentence.dressed "a" "b" "c d")).lexems := by
    refine .cons ?_ (.cons ?_ (.cons ?_ .nil)) <;> rintro (_ | _ | i) _ _ _ h <;> cases h
  obtain ⟨r, σ₁, r', σ₂, r₀, σ₃, hrender, hdiff, hfresh, hasked, hleft⟩ := @classes_shared _ .inert .plain
    (.root Host.root) 9998 _ _ _ _ _ _ _ (Lexicon.new "ui" none) (Lexicon.new "ui" none) .firstLevel .firstLevel
    (Sentence.boxed_boxes ⟨1⟩ (Sentence.dressed "a" "b" "c d"))
    (Sentence.boxed_boxes ⟨2⟩ (Sentence.dressed "b" "c" "d e")) rfl (fun h => absurd h (by decide))
    (Sentence.dressed_asks _ _ _) (Sentence.dressed_asks _ _ _) (.cons rfl (.cons rfl (.cons rfl .nil))) hcoherent
    ⟨.new, #[], ()⟩ ⟨.new, #[], ()⟩
  have hnew : (Sentence.plain (Sentence.dressed "b" "c" "d e")).lexems.map Engine.plain.requested =
      [["b"], ["c"], ["d", "e"]] := by rfl
  have hold : (Sentence.plain (Sentence.dressed "a" "b" "c d")).lexems.map Engine.plain.requested =
      [["a"], ["b"], ["c", "d"]] := by rfl
  simp only [Sentence.plain, Sentence.dressed, List.map_cons, List.map_nil, List.cons.injEq, and_true] at hnew hold
  obtain ⟨hnew₁, hnew₂, hnew₃⟩ := hnew
  obtain ⟨hold₁, hold₂, hold₃⟩ := hold
  refine ⟨r, σ₁, r', σ₂, r₀, σ₃, hrender, hdiff, hfresh, fun name => (hasked name).trans ?_,
    fun name => (hleft name).trans ?_⟩
  · simp [Sentence.plain, Sentence.dressed, hnew₁, hnew₂, hnew₃]
  · simp only [Sentence.plain, Sentence.dressed, List.map_cons, List.map_nil, List.exists_mem_cons_iff, Engine.Dropped,
      Engine.Gained, hnew₁, hnew₂, hnew₃, hold₁, hold₂, hold₃]
    grind

/-- A class that two words ask for is lost when the first one gives it up. -/
theorem shared_otherwise : ∃ r σ₁ r' σ₂ r₀ σ₃,
    Engine.plain.render .inert Host.root (.boxed ⟨1⟩ [("class", [.str "done", .bool true]), ("class", [.str "done"])])
      ⟨.new, #[], ()⟩ = .ok r σ₁ ∧
    Engine.plain.diff .inert Host.root (.boxed ⟨2⟩ [("class", [.str "done", .bool false]), ("class", [.str "done"])]) r
      σ₁ = .ok r' σ₂ ∧
    Engine.plain.render .inert Host.root (.boxed ⟨2⟩ [("class", [.str "done", .bool false]), ("class", [.str "done"])])
      ⟨.new, #[], ()⟩ = .ok r₀ σ₃ ∧
    σ₂.host.hasClass ⟨1⟩ "done" = false ∧ σ₃.host.hasClass ⟨1⟩ "done" = true := by
  have hcheck := Pass.exists_of_diff .inert .plain Host.root
    (.boxed ⟨1⟩ [("class", [.str "done", .bool true]), ("class", [.str "done"])])
    (.boxed ⟨2⟩ [("class", [.str "done", .bool false]), ("class", [.str "done"])]) ⟨.new, #[], ()⟩ ⟨.new, #[], ()⟩
    (fun _ _ h h' => decide (h.hasClass ⟨1⟩ "done" = false ∧ h'.hasClass ⟨1⟩ "done" = true)) (by rfl)
  simpa only [decide_eq_true_eq] using hcheck

end Parlance
