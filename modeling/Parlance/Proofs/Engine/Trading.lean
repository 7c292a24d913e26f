import Parlance.Proofs.Engine.Amending
import Parlance.Proofs.Engine.Freshness

/-! Words that change the names of their entries among each other. Each word takes its old entry away and puts the
new one, so an entry that comes to a word from one further on is put first and then taken away: it is lost. All
other entries are those of a fresh render. -/

namespace Parlance

open Host

/-- Two arguments that are one list have the same items. -/
def Arg.Coherent (a a' : Arg) : Prop := ∀ i items items', a = .list i items → a' = .list i items' → items = items'

/-- Arguments in the same place that are one list have the same items. -/
def Lexem.Coherent (lexem old : Lexem) : Prop := ∀ i, (lexem.arg i).Coherent (old.arg i)

theorem Lexem.Coherent.toText_eq {lexem old : Lexem} (h : lexem.Coherent old) (i : Nat)
    (hsame : (lexem.arg i).same (old.arg i) = true) : (lexem.arg i).toText = (old.arg i).toText :=
  Arg.toText_of_same (h i) hsame

theorem Lexem.coherent_texts (space name key value : String) (old : Lexem) :
    (⟨space, name, [.str key, .str value]⟩ : Lexem).Coherent old := by
  rintro (_ | _ | i) _ _ _ h <;> cases h

/-- A place that one of the new words takes over from an old one further on. -/
def Yielded : List Write → List Write → Place → Prop
  | w :: ws, _ :: olds, π => (π = w.place ∧ π ∈ olds.map Write.place) ∨ Yielded ws olds π
  | _, _, _ => False

instance decidableYielded : (ws olds : List Write) → (π : Place) → Decidable (Yielded ws olds π)
  | w :: ws, _ :: olds, π =>
      have := decidableYielded ws olds π
      inferInstanceAs (Decidable ((π = w.place ∧ π ∈ olds.map Write.place) ∨ Yielded ws olds π))
  | [], _, _ => .isFalse id
  | _ :: _, [], _ => .isFalse id

theorem Yielded.mem {ws olds : List Write} {π : Place} (h : Yielded ws olds π) : π ∈ ws.map Write.place := by
  induction ws generalizing olds with
  | nil => cases h
  | cons w ws ih =>
      cases olds with
      | nil => cases h
      | cons old olds =>
          rcases h with ⟨rfl, -⟩ | h
          · exact List.mem_cons_self
          · exact List.mem_cons_of_mem _ (ih h)

/-- Words that put the same entries take nothing over from each other. -/
theorem not_yielded_self {ws : List Write} (hdistinct : (ws.map Write.place).Nodup) (π : Place) :
    ¬ Yielded ws ws π := by
  induction ws with
  | nil => exact id
  | cons w ws ih =>
      obtain ⟨hw, hdistinct⟩ := List.nodup_cons.mp hdistinct
      rintro (⟨rfl, hmem⟩ | h)
      · exact hw hmem
      · exact ih hdistinct h

/-- Entries at places of their own stand at those places. -/
theorem lastAt_of_mem {ws : List Write} (hdistinct : (ws.map Write.place).Nodup) {w : Write} (hw : w ∈ ws) :
    lastAt (ws.map Write.entry) w.place = some w.value := by
  induction ws with
  | nil => cases hw
  | cons first ws ih =>
      obtain ⟨hfirst, hdistinct⟩ := List.nodup_cons.mp hdistinct
      rw [List.map_cons, lastAt]
      rcases List.mem_cons.mp hw with rfl | hw
      · rw [lastAt_eq_none.mpr (by simpa [Write.entry] using hfirst)]
        simp [Write.entry]
      · rw [ih hdistinct hw]
        rfl

namespace Engine

variable {ω : Type} {b : Behaviour ω} {e : Engine} {c : Cursor} {n : NodeId} {depth : Nat}
variable {lexem old : Lexem} {lexems olds : List Lexem} {w w₀ : Write} {ws ws₀ : List Write}

/-- Words that put one entry each, with their entries. -/
def Letters (e : Engine) : List Lexem → List Write → Prop := List.Forall₂ fun lexem w => e.Inscribes lexem [w]

theorem Letters.inscribe (h : e.Letters lexems ws) : List.Forall₂ e.Inscribes lexems (ws.map fun w => [w]) := by
  induction h with
  | nil => exact .nil
  | cons hhead _ ih => exact .cons hhead ih

theorem Letters.unique {ws ws' : List Write} (h : e.Letters lexems ws) (h' : e.Letters lexems ws') : ws = ws' := by
  induction h generalizing ws' with
  | nil =>
      cases h'
      rfl
  | cons hhead _ ih =>
      cases h' with
      | cons hhead' htail' =>
        have heq := hhead.writes.symm.trans hhead'.writes
        simp only [Option.some.injEq, List.cons.injEq, and_true] at heq
        rw [heq, ih htail']

/-- A word with one entry lays it over the old one. -/
theorem amend_rewrites (hwrites : e.Inscribes lexem [w]) (hold : e.Inscribes old [w₀])
    (hcongruent : lexem.isCongruent old = true) (hcoherent : lexem.Coherent old) (h : Host) (hn : n.index < h.count) :
    Rewrites n [w₀.entry] [w.entry] h (e.amend n lexem old h) := by
  obtain ⟨i, hword, hws⟩ := hwrites.word
  obtain ⟨i', hword', hws'⟩ := hold.word
  obtain rfl : i = i' := by
    rw [← instruction_of_congruent hcongruent, hword] at hword'
    exact Option.some.inj hword'
  obtain ⟨f, hf⟩ := rewrite_of_writes (e := e) (n := n) hws hws'
  obtain ⟨ws, hws'', hrewrites⟩ := rewrite_rewrites hcoherent.toText_eq hws' hf
  obtain rfl : ws = [w] := Option.some.inj (hws''.symm.trans hws)
  have hamend : e.amend n lexem old = f := by
    funext h
    rw [amend, hword, Option.bind_some, hf]
    rfl
  exact hamend ▸ hrewrites h hn

/-- What the words of a sentence leave at each place of their node. -/
theorem amendAll_held {h : Host} (hwrites : e.Letters lexems ws) (hold : e.Letters olds ws₀)
    (hcongruent : Congruent lexems olds) (hcoherent : List.Forall₂ Lexem.Coherent lexems olds)
    (hdistinct : (ws.map Write.place).Nodup) (hformer : (ws₀.map Write.place).Nodup) (hn : n.index < h.count)
    (hheld : ∀ p ∈ ws.zip ws₀, p.1.place = p.2.place → (h.content n).held p.2.place = some p.2.value) (π : Place) :
    ((e.amendAll n lexems olds h).content n).held π = if Yielded ws ws₀ π then none else
      overlay (lastAt (ws₀.map Write.entry) π) (lastAt (ws.map Write.entry) π) ((h.content n).held π) := by
  induction hcongruent generalizing ws ws₀ h with
  | nil =>
      cases hwrites
      cases hold
      rw [if_neg (show ¬ Yielded [] [] π from id)]
      rfl
  | @cons lexem old lexems olds hhead _ ih =>
      cases hwrites with
      | @cons _ w _ ws hlexem hwrites =>
      cases hold with
      | @cons _ w₀ _ ws₀ hfirst hold =>
      cases hcoherent with
      | cons hsame hcoherent =>
      obtain ⟨hw, hdistinct⟩ := List.nodup_cons.mp hdistinct
      obtain ⟨hw₀, hformer⟩ := List.nodup_cons.mp hformer
      have hrewrites := amend_rewrites hlexem hfirst hhead hsame h hn
      have hstep : ∀ π, ((e.amend n lexem old h).content n).held π =
          overlay (if π = w₀.place then some w₀.value else none) (if π = w.place then some w.value else none)
            ((h.content n).held π) := by
        intro π
        have hπ := hrewrites.held π
        simp only [lastAt_single, Write.entry] at hπ
        refine hπ fun hput hputs => ?_
        obtain rfl : π = w₀.place := by simpa using hput
        rw [if_pos rfl]
        exact hheld (w, w₀) List.mem_cons_self (by simpa using Eq.symm (show w₀.place = w.place by simpa using hputs))
      have hrest := ih hwrites hold hcoherent hdistinct hformer (hrewrites.count ▸ hn) (fun p hp hplace => by
        have hleft : p.2.place ≠ w.place := fun heq => hw (heq ▸ hplace ▸ List.mem_map_of_mem (List.of_mem_zip hp).1)
        have hright : p.2.place ≠ w₀.place := fun heq => hw₀ (heq ▸ List.mem_map_of_mem (List.of_mem_zip hp).2)
        rw [hstep, if_neg hleft, if_neg hright]
        exact hheld p (List.mem_cons_of_mem _ hp) hplace)
      rw [amendAll, hrest, hstep]
      rw [List.map_cons, List.map_cons, lastAt, lastAt, Write.entry, Write.entry]
      by_cases hπ : π = w.place
      · -- what the first word has put stays, unless a word behind it takes it away
        subst hπ
        have hlast : lastAt (ws.map Write.entry) w.place = none := lastAt_eq_none.mpr (by simpa [Write.entry] using hw)
        have hnot : ¬ Yielded ws ws₀ w.place := fun h => hw h.mem
        rw [hlast, if_neg hnot, if_pos rfl]
        by_cases hmem : w.place ∈ ws₀.map Write.place
        · have hsome : lastAt (ws₀.map Write.entry) w.place ≠ none := fun hnone =>
            lastAt_eq_none.mp hnone (by simpa [Write.entry] using hmem)
          obtain ⟨value, hvalue⟩ := Option.ne_none_iff_exists'.mp hsome
          have hgone : Yielded (w :: ws) (w₀ :: ws₀) w.place := .inl ⟨rfl, hmem⟩
          rw [hvalue, if_pos hgone]
          rfl
        · have hnone : lastAt (ws₀.map Write.entry) w.place = none :=
            lastAt_eq_none.mpr (by simpa [Write.entry] using hmem)
          have hstays : ¬ Yielded (w :: ws) (w₀ :: ws₀) w.place := Or.rec (fun h => hmem h.2) hnot
          rw [hnone, if_neg hstays]
          rfl
      · have hiff : Yielded (w :: ws) (w₀ :: ws₀) π ↔ Yielded ws ws₀ π :=
          or_iff_right fun h => hπ h.1
        rw [if_neg hπ, Option.or_none]
        refine if_congr hiff.symm rfl ?_
        cases lastAt (ws₀.map Write.entry) π <;> cases lastAt (ws.map Write.entry) π <;> rfl

end Engine

open Engine in
/-- An element with words of one entry each in it, diffed against words of the same kinds, is left with the entries of
a fresh render, but for those that a word takes over from a word behind it: these are lost. So the element is as
rendered afresh exactly if there are none. -/
theorem entries_traded {ω : Type} {b : Behaviour ω} {e : Engine} {c : Cursor} {depth : Nat} {box box' : Lexem}
    {tag : String} {i i' : Identity} {s s' : Sentence} {ws ws₀ : List Write} {outer outer' : Lexicon}
    {level level' : Level} (hbox : e.Boxes box tag i s) (hbox' : e.Boxes box' tag i' s')
    (hboxes : box'.isCongruent box = true) (hidentity : i' = i → s' = s)
    (hold : e.Letters s.lexems ws₀) (hwrites : e.Letters s'.lexems ws) (hwords : Congruent s'.lexems s.lexems)
    (hcoherent : List.Forall₂ Lexem.Coherent s'.lexems s.lexems) (hformer : (ws₀.map Write.place).Nodup)
    (hdistinct : (ws.map Write.place).Nodup) (σ σ₀ : Stage ω) : ∃ r σ₁ r' σ₂ r₀ σ₃,
    renderWithin b (depth + 2) e c (.new ⟨outer, level, [box]⟩) σ = .ok r σ₁ ∧
    diffWithin b (depth + 2) e c (.new ⟨outer', level', [box']⟩) r σ₁ = .ok r' σ₂ ∧
    renderWithin b (depth + 2) e c (.new ⟨outer', level', [box']⟩) σ₀ = .ok r₀ σ₃ ∧
    (∀ π, (σ₂.host.content σ.host.next).held π =
      if Yielded ws ws₀ π then none else (σ₃.host.content σ₀.host.next).held π) ∧
    ((∀ π, (σ₂.host.content σ.host.next).held π = (σ₃.host.content σ₀.host.next).held π) ↔
      ∀ π, ¬ Yielded ws ws₀ π) := by
  have hflatten : ∀ ws : List Write, (ws.map fun w => [w]).flatten = ws := List.flatMap_singleton'
  have hrender : renderWithin b (depth + 2) e c (.new ⟨outer, level, [box]⟩) σ = _ :=
    renderWithin_box hbox hold.inscribe
  have hfresh : renderWithin b (depth + 2) e c (.new ⟨outer', level', [box']⟩) σ₀ = _ :=
    renderWithin_box hbox' hwrites.inscribe
  rw [hflatten] at hrender hfresh
  obtain ⟨r', hdiff⟩ : ∃ r', diffWithin b (depth + 2) e c (.new ⟨outer', level', [box']⟩)
      ⟨none, ⟨outer, level, [box]⟩, [.element σ.host.next [inscribed ⟨some i, s⟩]]⟩
      (σ.onHost fun h => (h.putElement c tag).writeAll h.next ws₀) = .ok r' _ :=
    diffWithin_box hbox' hbox hboxes hwrites.inscribe hold.inscribe hwords
  obtain ⟨hn, hheld⟩ := σ.host.held_written c tag ws₀
  obtain ⟨-, hheld₀⟩ := σ₀.host.held_written c tag ws
  refine ⟨_, _, r', _, _, _, hrender, hdiff, hfresh, ?_⟩
  simp only [Stage.onHost_host, hheld₀]
  have hafter : ∀ π, ((if i' = i then (σ.host.putElement c tag).writeAll σ.host.next ws₀
      else e.amendAll σ.host.next s'.lexems s.lexems ((σ.host.putElement c tag).writeAll σ.host.next ws₀)).content
        σ.host.next).held π = if Yielded ws ws₀ π then none else lastAt (ws.map Write.entry) π := by
    intro π
    by_cases hid : i' = i
    · obtain rfl := hidentity hid
      obtain rfl := hwrites.unique hold
      rw [if_pos hid, if_neg (not_yielded_self hdistinct π), hheld]
    · rw [if_neg hid, amendAll_held hwrites hold hwords hcoherent hdistinct hformer hn (fun p hp _ => ?_) π, hheld,
        overlay_self]
      rw [hheld]
      exact lastAt_of_mem hformer (List.of_mem_zip hp).2
  refine ⟨hafter, fun hall π hyielded => ?_, fun hnone π => by rw [hafter, if_neg (hnone π)]⟩
  -- a place that is taken over is empty, and a fresh render fills it
  have hempty := (hall π).symm.trans ((hafter π).trans (if_pos hyielded))
  exact lastAt_eq_none.mp hempty (by simpa [Write.entry] using hyielded.mem)

/-- A box with words in it. -/
def Sentence.boxed (identity : Identity) (lexems : List (String × List Arg)) : Sentence :=
  .plain [("tag", [.str "div", .sentence identity (.plain lexems)])]

theorem Sentence.boxed_boxes (identity : Identity) (lexems : List (String × List Arg)) :
    Engine.plain.Boxes ⟨"ui", "tag", [.str "div", .sentence identity (.plain lexems)]⟩ "div" identity
      (.plain lexems) := ⟨rfl, rfl, rfl, rfl⟩

/-- Three attributes and a colour. -/
def Sentence.ring (x y z color : String) : List (String × List Arg) :=
  [("attr", [.str x, .str "1"]), ("attr", [.str y, .str "2"]), ("attr", [.str z, .str "3"]),
    ("style", [.str "color", .str color])]

theorem Sentence.ring_letters (x y z color : String) : Engine.plain.Letters (Sentence.plain (ring x y z color)).lexems
    [.attribute x "1", .attribute y "2", .attribute z "3", .style "color" color] :=
  .cons ⟨rfl, List.cons_ne_nil _ _, rfl⟩ (.cons ⟨rfl, List.cons_ne_nil _ _, rfl⟩
    (.cons ⟨rfl, List.cons_ne_nil _ _, rfl⟩ (.cons ⟨rfl, List.cons_ne_nil _ _, rfl⟩ .nil)))

/-- Of three names that go round, the one that comes to the front is lost. -/
theorem entries_traded_round : ∃ r σ₁ r' σ₂ r₀ σ₃,
    Engine.plain.render .inert Host.root (.boxed ⟨1⟩ (Sentence.ring "a" "b" "c" "red")) ⟨.new, #[], ()⟩ = .ok r σ₁ ∧
    Engine.plain.diff .inert Host.root (.boxed ⟨2⟩ (Sentence.ring "c" "a" "b" "blue")) r σ₁ = .ok r' σ₂ ∧
    Engine.plain.render .inert Host.root (.boxed ⟨2⟩ (Sentence.ring "c" "a" "b" "blue")) ⟨.new, #[], ()⟩ = .ok r₀ σ₃ ∧
    ∀ π, (σ₂.host.content ⟨1⟩).held π = if π = .attribute "c" then none else (σ₃.host.content ⟨1⟩).held π := by
  have hcoherent : List.Forall₂ Lexem.Coherent (Sentence.plain (Sentence.ring "c" "a" "b" "blue")).lexems
      (Sentence.plain (Sentence.ring "a" "b" "c" "red")).lexems :=
    .cons (Lexem.coherent_texts _ _ _ _ _) (.cons (Lexem.coherent_texts _ _ _ _ _)
      (.cons (Lexem.coherent_texts _ _ _ _ _) (.cons (Lexem.coherent_texts _ _ _ _ _) .nil)))
  obtain ⟨r, σ₁, r', σ₂, r₀, σ₃, hrender, hdiff, hfresh, hheld, -⟩ := @entries_traded _ .inert .plain (.root Host.root)
    9998 _ _ _ _ _ _ _ _ _ (Lexicon.new "ui" none) (Lexicon.new "ui" none) .firstLevel .firstLevel
    (Sentence.boxed_boxes ⟨1⟩ (Sentence.ring "a" "b" "c" "red"))
    (Sentence.boxed_boxes ⟨2⟩ (Sentence.ring "c" "a" "b" "blue")) rfl (fun h => absurd h (by decide))
    (Sentence.ring_letters _ _ _ _) (Sentence.ring_letters _ _ _ _) (.cons rfl (.cons rfl (.cons rfl (.cons rfl .nil))))
    hcoherent (by decide) (by decide) ⟨.new, #[], ()⟩ ⟨.new, #[], ()⟩
  refine ⟨r, σ₁, r', σ₂, r₀, σ₃, hrender, hdiff, hfresh, fun π => (hheld π).trans (if_congr ?_ rfl rfl)⟩
  constructor
  · rintro (⟨hπ, -⟩ | ⟨rfl, h⟩ | ⟨rfl, h⟩ | ⟨rfl, h⟩ | h)
    · exact hπ
    · exact absurd h (by decide)
    · exact absurd h (by decide)
    · exact absurd h (by decide)
    · exact h.elim
  · rintro rfl
    exact .inl ⟨rfl, by decide⟩

open Pass in
/-- Of two names that change places, the first one is lost. -/
theorem swapped_otherwise : ∃ r σ₁ r' σ₂ r₀ σ₃,
    Engine.plain.render .inert Host.root (.boxed ⟨1⟩ [("attr", [.str "a", .str "1"]), ("attr", [.str "b", .str "2"])])
      ⟨.new, #[], ()⟩ = .ok r σ₁ ∧
    Engine.plain.diff .inert Host.root (.boxed ⟨2⟩ [("attr", [.str "b", .str "1"]), ("attr", [.str "a", .str "2"])]) r
      σ₁ = .ok r' σ₂ ∧
    Engine.plain.render .inert Host.root (.boxed ⟨2⟩ [("attr", [.str "b", .str "1"]), ("attr", [.str "a", .str "2"])])
      ⟨.new, #[], ()⟩ = .ok r₀ σ₃ ∧
    (σ₂.host.content ⟨1⟩).attributes.get? "b" = none ∧ (σ₃.host.content ⟨1⟩).attributes.get? "b" = some "1" := by
  have hcheck := exists_of_diff .inert .plain Host.root
    (.boxed ⟨1⟩ [("attr", [.str "a", .str "1"]), ("attr", [.str "b", .str "2"])])
    (.boxed ⟨2⟩ [("attr", [.str "b", .str "1"]), ("attr", [.str "a", .str "2"])]) ⟨.new, #[], ()⟩ ⟨.new, #[], ()⟩
    (fun _ _ h h' => decide ((h.content ⟨1⟩).attributes.get? "b" = none ∧
      (h'.content ⟨1⟩).attributes.get? "b" = some "1")) (by rfl)
  simpa only [decide_eq_true_eq] using hcheck

end Parlance
