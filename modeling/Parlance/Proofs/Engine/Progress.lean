import Parlance.Proofs.Engine.Clearance
import Parlance.Proofs.Engine.Unfolding

/-! Every pass is an evolution: whatever it does to the host and to the posts of an output, it does by moves. As for
turns and shifts, the steps of one lexem are gone through case by case, and whole passes follow by induction on how
deep they go. -/

namespace Parlance

open Pass

section Suiting

variable {ρ : Regime} {e : Engine} {lexem old : Lexem} {mark : Mark} {i : Instruction} {n : NodeId} {ns : List NodeId}

theorem Lexem.lasts_of_writes {ws : List Write} (h : lexem.writes i = some ws) : i.lasts = true := by
  cases i <;> first | rfl | cases h

theorem Lexem.lasts_of_rewrite {f : Host → Host} (h : e.rewrite lexem old n i = some f) :
    i.lasts = true ∧ i ≠ .on ∧ i ≠ .onDom := by
  cases i with
  | attr | prop | data | style | cssClass | classes | id => exact ⟨rfl, by simp, by simp⟩
  | _ => cases h

theorem Lexem.writes_of_rewrite {f : Host → Host} (h : e.rewrite lexem old n i = some f) :
    ∃ ws, lexem.writes i = some ws := by
  cases i with
  | attr | data | style =>
      obtain ⟨key, -, hkey, -⟩ := Lexem.diffEntry_ok (Except.ok_of_toOption h)
      exact ⟨_, by rw [Lexem.writes, hkey]; rfl⟩
  | prop =>
      obtain ⟨name, -, value, hname, -, hvalue, -⟩ := Lexem.diffProperty_ok (Except.ok_of_toOption h)
      exact ⟨_, by simp only [Lexem.writes, hname, hvalue]; rfl⟩
  | cssClass | classes | id => exact ⟨_, rfl⟩
  | _ => cases h

/-- The same hook as before, told by the same argument. -/
theorem Lexem.hookArg_of_same {hook : Identity} (hhook : lexem.hookArg = .ok hook)
    (hsame : (lexem.arg 0).same (old.arg 0) = true) : old.hookArg = .ok hook := by
  unfold Lexem.hookArg at hhook ⊢
  split at hhook
  next i hi =>
    cases hhook
    rw [hi] at hsame
    cases hold : old.arg 0 with
    | hook j =>
        rw [hold] at hsame
        simp only [Arg.same, decide_eq_true_eq] at hsame
        rw [hsame]
    | _ => simp [hold, Arg.same] at hsame
  next => cases hhook

/-- Another hook is told by another argument. -/
theorem Lexem.hookArg_ne {hook former : Identity} (hhook : lexem.hookArg = .ok hook) (hold : old.hookArg = .ok former)
    (hother : (lexem.arg 0).same (old.arg 0) = false) : hook ≠ former := by
  rintro rfl
  unfold Lexem.hookArg at hhook hold
  split at hhook <;> cases hhook
  split at hold <;> cases hold
  simp_all [Arg.same]

namespace Engine.Suits

theorem of_word (hword : e.instruction? lexem = some i) (hlasts : i.lasts = false) : e.Suits lexem (.nodes ns) :=
  .nodes fun _ j hj => by
    rw [hword, Option.some.injEq] at hj
    exact hj ▸ hlasts

theorem of_none (hword : e.instruction? lexem = none) : e.Suits lexem (.nodes ns) :=
  .nodes fun _ j hj => by simp [hword] at hj

/-- A word that leaves nothing lasting has left nodes. -/
theorem loose (h : e.Suits lexem mark)
    (hlasts : e.isTarget lexem.space = true → ∀ i, e.instruction? lexem = some i → i.lasts = false) :
    mark.loose = true := by
  cases h with
  | nodes | element => rfl
  | entries hspace hword hwrites =>
      have hfalse := hlasts hspace _ hword
      rw [Lexem.lasts_of_writes hwrites] at hfalse
      cases hfalse
  | listener hspace hword => cases hlasts hspace _ hword
  | hook hspace hword => cases hlasts hspace _ hword

/-- Nodes suit a word of the same name as well. -/
theorem congr (hcongruent : lexem.isCongruent old = true) (hloose : mark.loose = true) (h : e.Suits old mark) :
    e.Suits lexem mark := by
  simp only [Lexem.isCongruent, Bool.and_eq_true, decide_eq_true_eq] at hcongruent
  have hword : e.instruction? lexem = e.instruction? old := instruction_congr hcongruent.2 hcongruent.1
  cases h with
  | nodes hlasts => exact .nodes fun hspace i hi => hlasts (hcongruent.2 ▸ hspace) i (hword ▸ hi)
  | element htag => exact .element (hword.trans htag)
  | entries | listener | hook => cases hloose

end Engine.Suits

theorem Regime.Admits.judge (hadmits : ρ.Admits e) {e' : Engine} (h : ρ.judge mark = some e') : e = e' :=
  hadmits e' (judge_eq_some.mp h).2

theorem Regime.Admits.suits (hadmits : ρ.Admits e) (h : e.Suits lexem mark) : ρ.Suits lexem mark := fun _ he =>
  hadmits.judge he ▸ h

theorem Regime.Suits.congr (hcongruent : lexem.isCongruent old = true) (hloose : mark.loose = true)
    (h : ρ.Suits old mark) : ρ.Suits lexem mark := fun e he => (h e he).congr hcongruent hloose

end Suiting

variable {ω : Type} {ρ : Regime} {b : Behaviour ω} {e : Engine} {c : Cursor} {lexem old : Lexem} {slot slot' : Slot}
variable {σ σ₁ σ' : Stage ω} {p : NodeId} {goal : List NodeId → Prop} {rs rs' rest : List Rendered}

section Rows

/-- An evaluation in the world comes before an evolution. -/
theorem Reaches.evaluated {w : ω} {posts : List Post} {lexems : List Lexem} {slots : List Slot}
    (hevaluation : Evaluation b σ.world w) (h : Reaches ρ b p goal (σ.inWorld w) posts σ' lexems slots) :
    Reaches ρ b p goal σ posts σ' lexems slots := by
  obtain ⟨posts', hposts', hmoves, hattends⟩ := h
  exact ⟨posts', hposts', fun hnodes hallowed left right hgrounded hfaces =>
    (Moves.evaluation hevaluation).trans (hmoves hnodes hallowed left right hgrounded hfaces),
    hattends.after (.evaluation hevaluation)⟩

theorem EvolvesAll.evaluated {w : ω} (hevaluation : Evaluation b σ.world w)
    (h : EvolvesAll ρ b p goal (σ.inWorld w) rs σ' rs') : EvolvesAll ρ b p goal σ rs σ' rs' := by
  have hquiet : Renewal (blind b) σ rs (σ.inWorld w) rs :=
    .keep rfl (fun _ => rfl) ⟨fun _ _ _ => trivial, fun _ => trivial⟩
  refine ⟨hquiet.trans h.renewal, fun hpaired => ?_⟩
  have hrest := h.evolves hpaired
  exact ⟨(hquiet.trans h.renewal hpaired).2, fun hholds hnodup hcensus hfollows =>
    (hrest.moves hholds hnodup hcensus hfollows).evaluated hevaluation⟩

/-- The stage that an evaluation leaves, when it is known to be one. -/
theorem evaluation_of {α : Type} {m : Pass ω α} {a : α} {w : ω}
    (hinWorld : ∀ {σ'}, m σ = .ok a σ' → ∃ w, σ' = σ.inWorld w ∧ Evaluation b σ.world w)
    (h : m σ = .ok a (σ.inWorld w)) : Evaluation b σ.world w := by
  obtain ⟨w', heq, hevaluation⟩ := hinWorld h
  obtain rfl : w = w' := congrArg Stage.world heq
  exact hevaluation

theorem chain_evolves {α : Type} {f : α → Pass ω Rendered} {as : List α}
    (hstep : ∀ {a σ r σ'}, f a σ = .ok r σ' → EvolvesAll ρ b p goal σ [] σ' [r]) (h : Chain f as σ rs σ') :
    EvolvesAll ρ b p goal σ [] σ' rs := by
  induction h with
  | nil => exact .refl
  | cons head _ ih => exact (hstep head).append_new ih

/-- Outputs brought up to a list of things: either nothing is left over, or nothing is new. -/
theorem matching_evolves {α : Type} {new : α → Stage ω → Rendered → Stage ω → Prop}
    {kept : α → Rendered → Stage ω → Rendered → Stage ω → Prop} {as : List α} {olds : List Rendered}
    (hnew : ∀ {a σ r σ'}, new a σ r σ' → EvolvesAll ρ b p goal σ [] σ' [r])
    (hkept : ∀ {a old σ r σ'}, kept a old σ r σ' →
      (old.Paired → r.sentence.lexems.length = old.sentence.lexems.length) ∧
        EvolvesAll ρ b p (fun _ => True) σ [old] σ' [r])
    (h : Engine.Matching new kept as olds σ rs rest σ') :
    (∀ r ∈ olds, r.Paired) → ∃ matched, olds = matched ++ rest ∧
      (rest = [] ∧ EvolvesAll ρ b p goal σ matched σ' rs ∨
        (lexemsOf rs).length = (lexemsOf matched).length ∧ EvolvesAll ρ b p (fun _ => True) σ matched σ' rs) := by
  induction h with
  | rest => exact fun _ => ⟨[], rfl, .inr ⟨rfl, .refl⟩⟩
  | new head _ ih =>
      intro hpaired
      obtain ⟨matched, hmatched, hcases⟩ := ih hpaired
      obtain ⟨rfl, rfl⟩ := List.append_eq_nil_iff.mp hmatched.symm
      refine ⟨[], rfl, .inl ⟨rfl, ?_⟩⟩
      rcases hcases with ⟨-, htail⟩ | ⟨-, htail⟩
      · exact (hnew head).append_new htail
      · exact (hnew head).append_new (htail.weaken fun _ _ => trivial)
  | @kept _ _ old _ _ _ _ _ _ _ head _ ih =>
      intro hpaired
      obtain ⟨hlength, hfirst⟩ := hkept head
      have hold := hpaired old List.mem_cons_self
      obtain ⟨matched, rfl, hcases⟩ := ih fun r hr => hpaired r (List.mem_cons_of_mem _ hr)
      refine ⟨old :: matched, rfl, ?_⟩
      rcases hcases with ⟨hrest, htail⟩ | ⟨hcount, htail⟩
      · exact .inl ⟨hrest, hfirst.beside hlength htail⟩
      · refine .inr ⟨?_, hfirst.beside hlength htail⟩
        rw [lexemsOf_cons, lexemsOf_cons, List.length_append, List.length_append, hlength hold, hcount]

/-- Outputs brought up to a list of things, without those that are left over. -/
theorem swept_evolves {α : Type} {new : α → Stage ω → Rendered → Stage ω → Prop}
    {kept : α → Rendered → Stage ω → Rendered → Stage ω → Prop} {as : List α} {olds : List Rendered}
    (hnew : ∀ {a σ r σ'}, new a σ r σ' → EvolvesAll ρ b p goal σ [] σ' [r])
    (hkept : ∀ {a old σ r σ'}, kept a old σ r σ' →
      (old.Paired → r.sentence.lexems.length = old.sentence.lexems.length) ∧
        EvolvesAll ρ b p (fun _ => True) σ [old] σ' [r])
    (hmatching : Engine.Matching new kept as olds σ rs rest σ₁) (hrest : Sweep (teardown b p) rest σ₁ σ')
    (hpaired : ∀ r ∈ olds, r.Paired) : EvolvesAll ρ b p goal σ olds σ' rs := by
  obtain ⟨matched, rfl, hcases⟩ := matching_evolves hnew hkept hmatching hpaired
  rcases hcases with ⟨rfl, hmatched⟩ | ⟨hlength, hmatched⟩
  · cases hrest
    rwa [List.append_nil]
  · exact hmatched.shed hlength (teardowns_evolves hrest)

/-- Something is told to the world before an evolution. -/
theorem Evolves.acted {w : ω} {olds lexems : List Lexem} {slots slots' : List Slot} (hact : b.Acts σ.world w)
    (h : Evolves ρ b p goal (σ.inWorld w) olds slots σ' lexems slots') :
    Evolves ρ b p goal σ olds slots σ' lexems slots' where
  turn := by
    have hquiet : Turn (blind b) σ slots (σ.inWorld w) slots :=
      .keep rfl (fun _ => rfl) ⟨fun _ _ _ => trivial, fun _ => trivial⟩
    exact hquiet.trans h.turn
  moves hholds hnodup hcensus hfollows := by
    obtain ⟨posts', hposts', hmoves, hattends⟩ := h.moves hholds hnodup hcensus hfollows
    exact ⟨posts', hposts', fun hnodes hallowed left right hgrounded hfaces =>
      (Moves.one (.acted hact)).trans (hmoves hnodes hallowed left right hgrounded hfaces),
      hattends.after (.acted hact)⟩

end Rows

section Steps

variable {render : Cursor → Phrase → Pass ω Rendered} {diff : Engine → Cursor → Phrase → Rendered → Pass ω Rendered}

variable (ρ b) in
/-- Rendering as deep as one likes is an evolution out of nothing, at the cursor. -/
def RenderEvolves (render : Cursor → Phrase → Pass ω Rendered) : Prop :=
  ∀ ⦃c phrase σ r σ'⦄, render c phrase σ = .ok r σ' → EvolvesAll ρ b c.parent (Ahead c.anchor) σ [] σ' [r]

variable (ρ b) in
/-- A diff as deep as one likes is an evolution, in the place of the output that was there before. -/
def DiffEvolves (diff : Engine → Cursor → Phrase → Rendered → Pass ω Rendered) : Prop :=
  ∀ ⦃e c phrase previous σ r σ'⦄, ρ.Admits e → diff e c phrase previous σ = .ok r σ' →
    (previous.Paired → r.sentence.lexems.length = previous.sentence.lexems.length) ∧
      EvolvesAll ρ b c.parent (fun _ => True) σ [previous] σ' [r]

/-- A component that is mounted puts its output at the cursor, and its marker after it. -/
theorem mount_evolves (hadmits : ρ.Admits e) (hrender : RenderEvolves ρ b render)
    (hrenders : Renders (Watch.blind b) render) {factory : Factory} {props : Arg} {s : Sentence} {r : Rendered}
    {w₁ w₂ w₃ w₄ : ω} {f : Host → Host} (hsuits : ρ.Suits lexem (.nodes [σ'.host.next]))
    (hcreate : b.create factory ⟨σ.instances.size⟩ props σ.world = .ok () w₁)
    (hwill : b.lifecycle ⟨σ.instances.size⟩ .willMount w₁ = .ok () w₂)
    (hview : b.view ⟨σ.instances.size⟩ w₂ = .ok s w₃)
    (hinner : render { c with component := some ⟨σ.instances.size⟩ } (.new s)
      ⟨σ.host, σ.instances.push ⟨factory, e, c.parent, none, none, []⟩, w₃⟩ = .ok r σ')
    (hadds : c.parent.index < σ'.host.count → Host.Adds c.parent c.anchor σ'.host (f σ'.host))
    (hdid : b.lifecycle ⟨σ.instances.size⟩ .didMount σ'.world = .ok () w₄) :
    Evolves ρ b c.parent (Ahead c.anchor) σ [] [] (((σ'.onHost f).onInstance ⟨σ.instances.size⟩
      fun i => { i with developed := some r, witness := some σ'.host.next }).inWorld w₄) [lexem]
      [.component ⟨σ.instances.size⟩] := by
  refine ⟨mount_turn _ hrenders hcreate hwill hview hinner hdid, ?_⟩
  intro cs posts hholds _ hcensus _
  cases hholds
  cases hcensus
  have hevolves := hrender hinner
  obtain ⟨-, hturn⟩ := hevolves.renewal (by simp)
  replace hevolves := hevolves.evolves (by simp)
  simp only [lexemsOf_cons, slotsOf_cons, lexemsOf_nil, slotsOf_nil, List.append_nil] at hturn hevolves
  generalize hid : (⟨σ.instances.size⟩ : InstanceId) = id at hcreate hwill hview hdid ⊢
  have hindex : id.index = σ.instances.size := by rw [← hid]
  obtain ⟨inner, hinner, hexchange⟩ := hturn [] .nil (mounted_blind List.nodup_nil)
  have hnotin : id ∉ inner := fun hchild => by
    rcases hexchange.source id hchild with hold | hlate
    · simp at hold
    · rw [Array.size_push] at hlate
      omega
  obtain ⟨posts, hposts, hmoves, hattends⟩ := hevolves.moves .nil List.nodup_nil .nil .fresh
  obtain ⟨i, hpresent, hcore⟩ := (hexchange.agree id (by rw [Array.size_push]; omega) (by simp)).some
    (show _ = some _ by rw [hindex, Array.getElem?_push_size])
  have hhere : (σ'.instances.modify id.index fun i =>
      { i with developed := some r, witness := some σ'.host.next })[id.index]? =
        some { i with developed := some r, witness := some σ'.host.next } := by
    rw [Array.getElem?_modify, if_pos rfl, hpresent, Option.map_some]
  have hparent : i.parent = c.parent := Placed.parent_of_core hcore
  have hengine : i.engine = e := Census.engine_of_core hcore
  have hposts' : Census ρ (σ'.instances.modify id.index fun i =>
      { i with developed := some r, witness := some σ'.host.next }) c.parent r.sentence.lexems r.slots posts :=
    hposts.congr hinner fun child hchild => agree_modify _ _ fun heq => hnotin (heq ▸ hchild)
  have hadmits' : ρ.Admits i.engine := hengine.symm ▸ hadmits
  have hwhole := Census.component hhere hparent hadmits' rfl rfl hsuits hposts' .nil
  have hbegun : Hushed b σ.world w₃ :=
    (Hushed.acted (.create hcreate)).trans ((Hushed.acted (.lifecycle hwill)).trans (.acted (.view hview)))
  refine ⟨_, hwhole, ?_, (hattends.after hbegun).append (.quiet (.acted (.lifecycle hdid)) fun _ => rfl)⟩
  intro hnodes hallowed left right hgrounded hfaces
  -- until the output is rendered the host is left alone
  have hbefore : Moves ρ b σ (left ++ right)
      ⟨σ.host, σ.instances.push ⟨factory, e, c.parent, none, none, []⟩, w₃⟩ (left ++ right) :=
    (Moves.one (.acted (.create hcreate))).trans ((Moves.one (.acted (.lifecycle hwill))).trans
      ((Moves.one (.acted (.view hview))).trans (.one (.tabled _ (.push _ _)))))
  have hrendered := hmoves hnodes hallowed.split.1 left right ⟨hgrounded.parent, by simp [elementsOf]⟩ hfaces
  rw [List.append_nil] at hrendered
  have hcount := (hbefore.trans hrendered).count_le
  have hadded := hadds (Nat.lt_of_lt_of_le hgrounded.parent hcount)
  have hput : Move ρ b σ' (left ++ posts ++ ⟨c.parent, lexem, .nodes ([] ++ [])⟩ :: right) (σ'.onHost f)
      (left ++ posts ++ ⟨c.parent, lexem, .nodes ([] ++ [σ'.host.next])⟩ :: right) :=
    .put (Nat.lt_of_lt_of_le hgrounded.parent hcount) hadded fun hp => hfaces fun hmem => hp (by
      simp only [elementsOf_append, List.mem_append] at hmem ⊢
      exact hmem.imp_left .inl)
  have htold : Move ρ b (σ'.onHost f) (left ++ posts ++ ⟨c.parent, lexem, .nodes [σ'.host.next]⟩ :: right)
      ((σ'.onHost f).inWorld w₄) _ := .acted (.lifecycle hdid)
  have hafter : Moves ρ b σ' (left ++ posts ++ right) _
      (left ++ posts ++ ⟨c.parent, lexem, .nodes [σ'.host.next]⟩ :: right) :=
    (Moves.one (.opened (hallowed ⟨c.parent, lexem, .nodes [σ'.host.next]⟩ (by simp)))).trans
    ((Moves.one hput).trans ((Moves.one htold).trans
      (.one (.tabled (σ'.instances.modify id.index fun i =>
        { i with developed := some r, witness := some σ'.host.next }) (.modify _ _ fun _ => rfl)))))
  simp only [List.append_nil, List.append_assoc, List.cons_append, List.nil_append] at hrendered hafter ⊢
  exact (hbefore.trans hrendered).trans hafter

/-- A component that is rendered again evolves in its place. -/
theorem update_evolves (hdiff : DiffEvolves ρ b diff) (hdiffs : Diffs (Watch.blind b) diff) {id : InstanceId}
    (hsuits : ∀ {ns : List NodeId}, ρ.Suits old (.nodes ns) → ρ.Suits lexem (.nodes ns))
    (hupdate : Engine.UpdateStep b diff id σ σ') :
    Evolves ρ b p goal σ [old] [.component id] σ' [lexem] [.component id] := by
  have hturn : Turn (blind b) σ [.component id] σ' [.component id] := fun cs hholds hmounted =>
    update_exchange (Watch.blind b) hdiffs hupdate hholds hmounted.nodup (fun _ _ _ => trivial)
      (fun _ _ => trivial) trivial .view
  refine ⟨hturn, ?_⟩
  intro cs posts hholds hnodup hcensus hfollows
  obtain ⟨i, previous, inner, rfl, hpresent, hdeveloped, hpaired, hlater, hinner⟩ := hholds.of_component
  obtain ⟨innerPosts, witness, rfl, hparent, hadmits, hwitness, hsuitsOld, hcensusInner⟩ :=
    hcensus.of_component hpresent hdeveloped
  cases hupdate with
  | absent habsent => simp [habsent] at hpresent
  | @viewed i₁ previous₁ next s w σ' hpresent₁ hdeveloped₁ hview hrun =>
  rw [hpresent] at hpresent₁
  cases hpresent₁
  rw [hdeveloped] at hdeveloped₁
  cases hdeveloped₁
  have hnotin : id ∉ inner := fun hchild => absurd (hlater id hchild) (Nat.lt_irrefl _)
  have hlt := (Array.getElem?_eq_some_iff.mp hpresent).1
  have hinnerNodup : inner.Nodup := hnodup.sublist (List.sublist_append_left _ _)
  obtain ⟨-, hevolves⟩ := hdiff hadmits hrun
  obtain ⟨-, hturn'⟩ := hevolves.renewal (by simpa using hpaired)
  replace hevolves := hevolves.evolves (by simpa using hpaired)
  simp only [lexemsOf_cons, slotsOf_cons, lexemsOf_nil, slotsOf_nil, List.append_nil, hparent] at hturn' hevolves
  have hagree : ∀ child ∈ inner, Agree σ.instances (σ.instances.modify id.index fun i =>
      { i with developed := none }) child := fun child hchild =>
    agree_modify _ _ fun heq => hnotin (heq ▸ hchild)
  have hinner₁ := hinner.congr hagree
  obtain ⟨inner', hinner', hexchange⟩ := hturn' inner hinner₁ (mounted_blind hinnerNodup)
  have hnotin' : id ∉ inner' := fun hchild => by
    rcases hexchange.source id hchild with hold | hlate
    · exact hnotin hold
    · rw [Stage.inWorld_instances, Stage.onInstance_instances, Array.size_modify] at hlate
      omega
  have hagree' : ∀ child ∈ inner', Agree σ'.instances (σ'.instances.modify id.index fun i =>
      { i with developed := some next }) child := fun child hchild =>
    agree_modify _ _ fun heq => hnotin' (heq ▸ hchild)
  obtain ⟨i', hpresent', hcore⟩ := (hexchange.agree id (by simpa using hlt) hnotin).some
    (show (σ.instances.modify id.index _)[id.index]? = some _ by
      rw [Array.getElem?_modify, if_pos rfl, hpresent, Option.map_some])
  have hhere : (σ'.instances.modify id.index fun i => { i with developed := some next })[id.index]? =
      some { i' with developed := some next } := by
    rw [Array.getElem?_modify, if_pos rfl, hpresent', Option.map_some]
  have houtput := hfollows.output hpresent hdeveloped hhere rfl
  obtain ⟨posts', hposts', hmoves, hattends⟩ := hevolves.moves hinner₁ hinnerNodup (hcensusInner.congr hinner hagree)
    (houtput.congr hinner (hinner'.congr hagree') hagree fun child hchild => Eq.symm (hagree' child hchild))
  have hparent' : i'.parent = p := (Placed.parent_of_core hcore).trans hparent
  have hwitness' : i'.witness = some witness := (Placed.witness_of_core hcore).trans hwitness
  have hadmits' : ρ.Admits i'.engine := (Census.engine_of_core hcore).symm ▸ hadmits
  have hwhole := Census.component hhere hparent' hadmits' hwitness' rfl (hsuits hsuitsOld)
    (hposts'.congr hinner' hagree') .nil
  refine ⟨_, hwhole, ?_, (hattends.after (.acted (.view hview))).append (.quiet .refl fun _ => rfl)⟩
  intro hnodes hallowed left right hgrounded _
  have hbefore : Moves ρ b σ (left ++ innerPosts ++ ⟨p, old, .nodes [witness]⟩ :: right)
      ((σ.onInstance id fun i => { i with developed := none }).inWorld w)
      (left ++ innerPosts ++ ⟨p, lexem, .nodes [witness]⟩ :: right) :=
    (Moves.one (.renamed (.inl rfl) (hallowed ⟨p, lexem, .nodes [witness]⟩ (by simp)))).trans
      ((Moves.one (.acted (.view hview))).trans (.one (.tabled _ (.modify _ _ fun _ => rfl))))
  have hinside := hmoves hnodes hallowed.split.1 left (⟨p, lexem, .nodes [witness]⟩ :: right) hgrounded.left fun _ => trivial
  have hafter : Moves ρ b σ' (left ++ posts' ++ ⟨p, lexem, .nodes [witness]⟩ :: right)
      (σ'.onInstance id fun i => { i with developed := some next })
      (left ++ posts' ++ ⟨p, lexem, .nodes [witness]⟩ :: right) := .one (.tabled _ (.modify _ _ fun _ => rfl))
  simp only [List.append_assoc, List.cons_append, List.nil_append] at hbefore hinside hafter ⊢
  exact (hbefore.trans hinside).trans hafter

/-- Nodes that a slot ends in are put at the cursor, one after the other. -/
theorem Move.putAt {left right : List Post} {anchor : Option NodeId} {ns : List NodeId} {h : Host}
    (hp : p.index < σ.host.count) (hadds : Host.Adds p anchor σ.host h) (hfaces : Faces p (Ahead anchor) left right) :
    Move ρ b σ (left ++ ⟨p, lexem, .nodes ns⟩ :: right) (σ.onHost fun _ => h)
      (left ++ ⟨p, lexem, .nodes (ns ++ [σ.host.next])⟩ :: right) := by
  have hput : Move ρ b σ (left ++ ⟨p, lexem, .nodes (ns ++ [])⟩ :: right) (σ.onHost fun _ => h)
      (left ++ ⟨p, lexem, .nodes (ns ++ σ.host.next :: [])⟩ :: right) := .put hp hadds hfaces
  rwa [List.append_nil] at hput

/-- Rendering a lexem is an evolution out of nothing. -/
theorem RenderStep.evolves (hadmits : ρ.Admits e) (hrender : RenderEvolves ρ b render)
    (hrenders : Renders (Watch.blind b) render) (h : Engine.RenderStep b render e c lexem σ slot σ') :
    Evolves ρ b c.parent (Ahead c.anchor) σ [] [] σ' [lexem] [slot] := by
  have hplace : ∀ {kind : NodeKind} {h : Host} {m : Mutation}, m.made? = some h.next → c.parent.index < h.count →
      Host.Adds c.parent c.anchor h (h.putNode kind c.parent c.anchor m) := fun hm hp => Host.putNode_adds _ hm hp
  have hended : ∀ {σ σ₁ : Stage ω} {slot : Slot} {f : Host → Host}, (∀ id, slot ≠ .component id) →
      slot.inside c.parent = c.parent → slot.mark = .nodes [σ₁.host.next] →
      (c.parent.index < σ₁.host.count → Host.Adds c.parent c.anchor σ₁.host (f σ₁.host)) →
      e.Suits lexem (.nodes [σ₁.host.next]) → EvolvesAll ρ b c.parent (Ahead c.anchor) σ [] σ₁ slot.parts →
      Evolves ρ b c.parent (Ahead c.anchor) σ [] [] (σ₁.onHost f) [lexem] [slot] := by
    intro σ σ₁ slot f hslot hinside hmark hadds hsuits hparts
    refine .born hslot hinside (hmark ▸ hadmits.suits hsuits) hparts rfl (fun _ hallows left right hp hfaces => ?_)
      (.quiet .refl fun _ => by rw [hmark]; rfl)
    rw [hmark]
    exact (Moves.one (.opened hallows)).trans (.one (.putAt hp (hadds hp) hfaces))
  have hempty : ∀ {σ σ₁ : Stage ω} {slot : Slot}, (∀ id, slot ≠ .component id) → slot.inside c.parent = c.parent →
      slot.mark = .nodes [] → e.Suits lexem (.nodes []) →
      EvolvesAll ρ b c.parent (Ahead c.anchor) σ [] σ₁ slot.parts →
      Evolves ρ b c.parent (Ahead c.anchor) σ [] [] σ₁ [lexem] [slot] := by
    intro σ σ₁ slot hslot hinside hmark hsuits hparts
    refine .born hslot hinside (hmark ▸ hadmits.suits hsuits) hparts rfl (fun _ hallows left right _ _ => ?_)
      (.quiet .refl fun _ => by rw [hmark]; rfl)
    rw [hmark]
    exact .one (.opened hallows)
  cases h with
  | skipped hspace =>
      exact hempty (by simp) rfl rfl (.nodes fun htarget => by simp [hspace] at htarget) .refl
  | compound _ hword hdevelop hinner =>
      exact hempty (by simp) rfl rfl (.of_none hword) (.evaluated (evaluation_of Engine.develop_inWorld hdevelop)
        (hrender hinner))
  | «attribute» hspace hword hwrites =>
      refine .born (by simp) rfl (hadmits.suits (.entries hspace hword hwrites)) .refl rfl
        (fun _ hallows left right hp _ => ?_) (.quiet .refl fun _ => rfl)
      exact .one (.written hp hadmits hspace hword hwrites hallows)
  | text _ hword => exact hended (by simp) rfl rfl (hplace rfl) (.of_word hword rfl) .refl
  | element _ hword _ _ hinner =>
      exact .bornElement (hadmits.suits (.element hword)) (hplace rfl) (chain_evolves (fun h => hrender h) hinner)
  | listener hspace hword hevent hlistener =>
      refine .born (by simp) rfl (hadmits.suits (.listener hspace hword hevent hlistener)) .refl rfl
        (fun _ hallows left right hp _ => ?_) (.quiet .refl fun _ => rfl)
      exact .one (.bound hp hevent hlistener hallows)
  | @branch i _ _ _ _ _ _ _ hword hchoice hchosen hinner =>
      have hlasts : i.lasts = false := by cases i <;> first | rfl | cases hchoice
      exact hended (by simp) rfl rfl (hplace rfl) (.of_word hword hlasts)
        (.evaluated (evaluation_of (Engine.choice_inWorld hchoice) hchosen)
          (chain_evolves (fun h => hrender h) hinner))
  | each _ hword hphrases hinner =>
      exact hended (by simp) rfl rfl (hplace rfl) (.of_word hword rfl)
        (.evaluated (evaluation_of Engine.eachPhrases_inWorld hphrases) (chain_evolves (fun h => hrender h) hinner))
  | raw _ hword =>
      refine .born (by simp) rfl (hadmits.suits (.of_word hword rfl)) .refl rfl (fun _ hallows left right hp hfaces => ?_)
        (.quiet .refl fun _ => rfl)
      have hraw : Host.Adds c.parent c.anchor σ.host (σ.host.insertRaw c.parent (lexem.arg 0).toText c.anchor).2 :=
        Host.insertRaw_adds _ hp
      have hp₁ : c.parent.index < (σ.host.insertRaw c.parent (lexem.arg 0).toText c.anchor).2.count := by
        rw [hraw.puts.count]
        exact Nat.lt_succ_of_lt hp
      have hmarker : Host.Adds c.parent c.anchor (σ.host.insertRaw c.parent (lexem.arg 0).toText c.anchor).2
          ((σ.host.insertRaw c.parent (lexem.arg 0).toText c.anchor).2.putMarker c (e.markerText "html")) := hplace rfl hp₁
      exact (Moves.one (.opened hallows)).trans
        ((Moves.one (.putAt hp hraw hfaces)).trans (.one (.putAt hp₁ hmarker hfaces)))
  | hook hspace hword hhook hcall =>
      refine .born (by simp) rfl (hadmits.suits (.hook hspace hword hhook)) .refl rfl
        (fun hnodes hallows left right _ _ => ?_) (.turn (.rendered hhook) rfl rfl fun ear => ear.render hcall)
      exact .one (.hooked hhook (hnodes (.render hcall)) hcall (Engine.ofName_of_instruction hword) hallows)
  | callback _ hword _ hcall =>
      have hquiet : EvolvesAll ρ b c.parent (Ahead c.anchor) σ [] (σ.inWorld _) [] :=
        .keep (fun _ => .one (.acted (.callback hcall))) (.acted (.callback hcall)) rfl fun _ => rfl
      exact hempty (by simp) rfl rfl (.of_word hword rfl) hquiet
  | name _ hword hname =>
      obtain ⟨t, rfl, hsize, hagree⟩ := nameNode_ok hname
      have hquiet : EvolvesAll ρ b c.parent (Ahead c.anchor) σ [] ⟨σ.host, t, σ.world⟩ [] :=
        .keep (fun _ => .one (.tabled t (.of_agree hagree))) .refl hsize hagree
      exact hempty (by simp) rfl rfl (.of_word hword rfl) hquiet
  | component _ hword _ hcreate hwill hview hinner hdid =>
      exact mount_evolves hadmits hrender hrenders (hadmits.suits (.of_word hword rfl)) hcreate hwill hview hinner
        (hplace rfl) hdid

section Again

theorem instruction_again (hcongruent : lexem.isCongruent old = true) :
    e.instruction? old = e.instruction? lexem ∧ old.space = lexem.space := by
  simp only [Lexem.isCongruent, Bool.and_eq_true, decide_eq_true_eq] at hcongruent
  exact ⟨Engine.instruction_congr hcongruent.2.symm hcongruent.1.symm, hcongruent.2.symm⟩

variable (hadmits : ρ.Admits e) (hcongruent : lexem.isCongruent old = true)
include hadmits hcongruent

/-- The slot of a word that leaves nothing lasting may come to stand under the word in its place. -/
theorem Evolves.again (hmoves : ∀ posts, Moves ρ b σ posts σ' posts) (hhushed : Hushed b σ.world σ'.world)
    (hsize : σ'.instances.size = σ.instances.size) (hagree : ∀ id, Agree σ.instances σ'.instances id)
    (hword : e.isTarget lexem.space = false ∨ e.instruction? lexem = none ∨
      ∃ i, e.instruction? lexem = some i ∧ i.lasts = false) :
    Evolves ρ b p goal σ [old] [slot] σ' [lexem] [slot] := by
  obtain ⟨hinstruction, hspace⟩ := instruction_again hcongruent
  refine .renamed hmoves hhushed hsize hagree (fun hloose => .congr hcongruent hloose) fun {mark} _ hsuits => ?_
  cases hengine : ρ.judge mark with
  | none => exact .inr (.inl rfl)
  | some e' =>
      obtain rfl := hadmits.judge hengine
      refine .inl ((hsuits e hengine).loose fun htarget i hi => ?_)
      rw [hinstruction] at hi
      rw [hspace] at htarget
      rcases hword with hword | hword | ⟨j, hword, hlasts⟩
      · simp [htarget] at hword
      · simp [hi] at hword
      · rw [hi, Option.some.injEq] at hword
        exact hword ▸ hlasts

/-- What is left alone stays, and a word without arguments is followed by the very same one. -/
theorem Engine.Unchanged.evolves (h : Engine.Unchanged e lexem old σ slot) :
    Evolves ρ b p goal σ [old] [slot] σ [lexem] [slot] := by
  have hagain : (e.isTarget lexem.space = false ∨ e.instruction? lexem = none ∨
      ∃ i, e.instruction? lexem = some i ∧ i.lasts = false) → Evolves ρ b p goal σ [old] [slot] σ [lexem] [slot] :=
    fun hword => .again hadmits hcongruent (fun _ => .refl) .refl rfl (fun _ => rfl) hword
  cases h with
  | foreign hspace => exact hagain (.inl hspace)
  | compound hword => exact hagain (.inr (.inl hword))
  | text hword | switch hword | raw hword | callback hword | component hword =>
      exact hagain (.inr (.inr ⟨_, hword, rfl⟩))
  | bare hargs =>
      refine .renamed (fun _ => .refl) .refl rfl (fun _ => rfl) (fun hloose => .congr hcongruent hloose)
        fun {mark} hfollows hsuits => ?_
      cases hengine : ρ.judge mark with
      | none => exact .inr (.inl rfl)
      | some e' =>
          obtain ⟨hheeds, hmade⟩ := Regime.judge_eq_some.mp hengine
          have hold := ρ.args hmade hheeds (hsuits e' hengine) (hfollows e' hmade) hargs
          simp only [Lexem.isCongruent, Bool.and_eq_true, decide_eq_true_eq] at hcongruent
          obtain ⟨space, name, args⟩ := lexem
          obtain ⟨oldSpace, oldName, oldArgs⟩ := old
          obtain ⟨rfl, rfl⟩ := hcongruent
          exact .inr (.inr (by rw [show args = [] from hargs, show oldArgs = [] from hold]))

/-- A word that puts entries is carried out again. -/
theorem rewrite_evolves {i : Instruction} {f : Host → Host} (hspace : e.isTarget lexem.space = true)
    (hword : e.instruction? lexem = some i) (hrewrite : e.rewrite lexem old p i = some f) :
    Evolves ρ b p goal σ [old] [slot] (σ.onHost f) [lexem] [slot] := by
  obtain ⟨hinstruction, hspaces⟩ := instruction_again hcongruent
  obtain ⟨hlasts, hon, hdom⟩ := Lexem.lasts_of_rewrite hrewrite
  rw [hword] at hinstruction
  -- the post of such a word is one of entries
  have hentries : ∀ {mark : Mark}, ρ.judge mark = some e → ρ.Suits old mark →
      mark = .entries ∧ ∃ ws, old.writes i = some ws := by
    intro mark hengine hsuits
    have hsame : ∀ {j : Instruction}, e.instruction? old = some j → j = i := fun hj => by
      rw [hinstruction, Option.some.injEq] at hj
      exact hj.symm
    cases hsuits e hengine with
    | nodes hnodes =>
        have hfalse := hnodes (hspaces ▸ hspace) i hinstruction
        rw [hlasts] at hfalse
        cases hfalse
    | element htag =>
        obtain rfl := hsame htag
        cases hlasts
    | entries _ hj hwrites => exact ⟨rfl, _, hsame hj ▸ hwrites⟩
    | listener _ hj => exact absurd (hsame hj).symm hon
    | hook _ hj => exact absurd (hsame hj).symm hdom
  cases hengine : ρ.judge .entries with
  | none =>
      have hnone : ∀ {mark : Mark}, ρ.Suits old mark → ρ.judge mark = none := by
        intro mark hsuits
        cases hmark : ρ.judge mark with
        | none => rfl
        | some e' =>
            obtain rfl := hadmits.judge hmark
            rw [(hentries hmark hsuits).1, hengine] at hmark
            cases hmark
      refine .reworded .refl rfl (fun _ => rfl) (fun hloose => .congr hcongruent hloose)
        (fun {mark} _ hsuits => .inr (.inl (hnone hsuits))) fun {mark} hsuits _ hallows left right => ?_
      have hstrokes := rewrite_strokes hrewrite (List.subset_append_left (lexem.spots i) (old.spots i))
        (List.subset_append_right _ _) σ.host
      refine .one (.shown hengine (hnone hsuits) hstrokes (fun π hπ => ?_) (.inr hallows))
      rcases List.mem_append.mp hπ with hnew | hold
      · exact .inr ⟨i, Engine.ofName_of_instruction hword, hnew⟩
      · exact .inl ⟨i, Engine.ofName_of_instruction hinstruction, hold⟩
  | some e' =>
      obtain rfl := hadmits.judge hengine
      refine ⟨.onHost (Watch.blind b), fun {cs posts} _ _ hcensus hfollows => ?_⟩
      cases hcensus with
      | component _ _ _ _ _ hsuits => cases (hentries (Regime.judge_of_entries hengine _) hsuits).1
      | part hslot hsuits hinner houter =>
      cases houter
      obtain ⟨hmark, ws, hold⟩ := hentries (Regime.judge_of_entries hengine _) hsuits
      have hattribute : slot = .attribute := by cases slot <;> first | rfl | cases hmark
      subst hattribute
      cases hinner
      obtain ⟨ws', hwrites⟩ := Lexem.writes_of_rewrite hrewrite
      have hcensus' : Census ρ σ.instances p [lexem] [.attribute] ([] ++ [⟨p, lexem, .entries⟩]) :=
        .part (by simp) (hadmits.suits (.entries hspace hword hwrites)) .nil .nil
      refine ⟨_, hcensus', ?_, .other .refl nofun nofun⟩
      intro _ hallowed left right hgrounded _
      have hmove : Move ρ b σ (left ++ ⟨p, old, .entries⟩ :: right) (σ.onHost f)
          (left ++ ⟨p, lexem, .entries⟩ :: right) :=
        .rewritten hgrounded.parent hengine hspace hword hinstruction hold hrewrite
          (hfollows.word (Regime.judge_eq_some.mp hengine).2) (hallowed _ List.mem_cons_self)
      simpa only [Slot.mark, List.append_assoc, List.cons_append, List.nil_append] using Moves.one hmove

end Again

/-- Diffing a lexem is an evolution in the place of its slot. -/
theorem DiffStep.evolves (hadmits : ρ.Admits e) (hcongruent : lexem.isCongruent old = true)
    (hrender : RenderEvolves ρ b render) (hrenders : Renders (Watch.blind b) render) (hdiff : DiffEvolves ρ b diff)
    (hdiffs : Diffs (Watch.blind b) diff) (h : Engine.DiffStep b render diff e c lexem old σ slot slot' σ') :
    Evolves ρ b c.parent goal σ [old] [slot] σ' [lexem] [slot'] := by
  have hrenewed : ∀ {mark : Mark}, mark.loose = true → ρ.Suits old mark → ρ.Suits lexem mark :=
    fun hloose => .congr hcongruent hloose
  cases h with
  | kept hkept => exact hkept.evolves hadmits hcongruent
  | redeveloped _ hword _ hdevelop hrun =>
      have hinner := (hdiff hadmits hrun).2.evaluated (evaluation_of Engine.develop_inWorld hdevelop)
      refine .part (fun _ => True) (by simp) (by simp) rfl rfl (.inl rfl) (hrenewed rfl) (fun _ _ => trivial) hinner.renewal
        fun hpaired hholds hnodup hcensus hfollows => ?_
      refine (hinner.evolves hpaired).moves hholds hnodup hcensus (hfollows.parts fun e' he => ?_)
      rw [← hadmits e' he]
      simp [Engine.renews, hword]
  | rewritten hspace _ hword hrewrite => exact rewrite_evolves hadmits hcongruent hspace hword hrewrite
  | @text node =>
      refine .single (by simp) (by simp) rfl rfl rfl (hrenewed rfl) (fun _ _ _ hallows left right _ => ?_)
        (.other .refl (by simp [Slot.mark]) (by simp [Slot.mark]))
      have hpost : (⟨c.parent, lexem, .nodes [node]⟩ : Post) ∈ left ++ ⟨c.parent, lexem, .nodes [node]⟩ :: right := by simp
      exact (Moves.one (.renamed (.inl rfl) hallows)).trans (.one (.worded hpost List.mem_cons_self))
  | @retagged node kids _ _ _ σ₁ _ hword htag holdTag hne hstep hremove =>
      have hput : Evolves ρ b c.parent (Ahead (some node)) σ [] [] σ₁ [lexem] [slot'] :=
        RenderStep.evolves hadmits hrender hrenders hstep
      have hremoved : Evolves ρ b c.parent goal σ₁ [old] [.element node kids] σ' [] [] := teardownSlot_evolves hremove
      refine hput.append rfl (fun _ => ⟨.fresh, .gone⟩) (fun hcensus hp _ => ?_) hremoved
      cases hcensus with
      | part _ _ hinner houter =>
      cases houter
      have hnode : node ≠ c.parent := fun heq =>
        hp (mem_elementsOf.mpr ⟨⟨c.parent, old, .element node⟩, by simp [Slot.mark], by rw [heq]⟩)
      have hnothing := hinner.topsAt_inner hnode fun hmem => hp (by simp [hmem])
      simp [topsAt_append, hnothing, topsAt_cons, Ahead, Slot.mark, Mark.tops]
  | @tag node tag kids kids' rest σ₁ _ _ hword htag holdTag hkids hrest =>
      have hswept : (∀ r ∈ kids, r.Paired) → EvolvesAll ρ b node (Ahead none) σ kids σ' kids' := by
        refine swept_evolves ?_ ?_ hkids hrest
        · rintro _ _ _ _ ⟨phrase, -, hrun⟩
          exact hrender hrun
        · intro _ _ _ _ _ hchild
          cases hchild with
          | same => exact ⟨fun _ => rfl, .refl⟩
          | diffed _ hrun => exact hdiff hadmits hrun
      refine .part (Ahead none) (by simp) (by simp) rfl rfl (.inl rfl) (hrenewed rfl) (fun _ hp => ?_)
        (fun hpaired => (hswept hpaired).renewal hpaired) fun hpaired hholds hnodup hcensus hfollows => ?_
      · exact absurd (mem_elementsOf.mpr ⟨_, List.mem_cons_self, rfl⟩) hp
      · refine ((hswept hpaired).evolves hpaired).moves hholds hnodup hcensus (hfollows.parts fun e' he => ?_)
        rw [← hadmits e' he]
        simp [Engine.renews, hword, Lexem.stringArg_ok.mp htag, Lexem.stringArg_ok.mp holdTag]
  | @moved id _ oldEvent _ hspace hword hevent _ _ hlistener =>
      refine .single (by simp) (by simp) rfl rfl rfl
        (fun _ => hadmits.suits (.listener hspace hword hevent hlistener)) (fun _ _ _ hallows left right hp => ?_)
        (.other .refl (by simp [Slot.mark]) (by simp [Slot.mark]))
      have hgone : Moves ρ b σ (left ++ ⟨c.parent, old, .listener id⟩ :: right)
          (σ.onHost (·.removeListener c.parent oldEvent id)) (left ++ right) := .one .unbound
      exact hgone.trans (.one (.bound (Nat.lt_of_lt_of_le hp hgone.count_le) hevent hlistener hallows))
  | rebound hspace hword hevent holdEvent hlistener =>
      refine .single (by simp) (by simp) rfl rfl rfl
        (fun _ => hadmits.suits (.listener hspace hword hevent hlistener)) (fun _ _ _ hallows left right _ => ?_)
        (.other .refl (by simp [Slot.mark]) (by simp [Slot.mark]))
      exact .one (.rebound hevent holdEvent hlistener hallows)
  | @branch i _ _ _ _ _ _ _ _ _ hword hchoice hflips hchosen hrun =>
      have hinner := (hdiff hadmits hrun).2.evaluated (evaluation_of (Engine.choice_inWorld hchoice) hchosen)
      refine .part (fun _ => True) (by simp) (by simp) rfl rfl (.inl rfl) (hrenewed rfl) (fun _ _ => trivial) hinner.renewal
        fun hpaired hholds hnodup hcensus hfollows => ?_
      refine (hinner.evolves hpaired).moves hholds hnodup hcensus (hfollows.parts fun e' he => ?_)
      rw [← hadmits e' he]
      cases i <;> cases hchoice <;> simp [Engine.renews, hword, hflips]
  | @flipped _ _ _ chosen w witness developed developed' σ₁ _ _ _ hchoice _ hchosen hremove hinner =>
      have hgone := (teardowns_evolves (ρ := ρ) hremove).evaluated
        (evaluation_of (Engine.choice_inWorld hchoice) hchosen)
      have hcome : EvolvesAll ρ b c.parent (Ahead (some witness)) σ₁ [] σ' developed'.toList :=
        chain_evolves (fun h => hrender h) hinner
      refine .part (Ahead (some witness)) (by simp) (by simp) rfl rfl (.inl rfl) (hrenewed rfl) (fun _ _ => by
          simp [Ahead, topsAt_cons, Slot.inside, Slot.mark, Slot.ends, Mark.tops])
        (hgone.renewal.trans hcome.renewal) fun hpaired hholds hnodup hcensus _ => ?_
      exact (hgone.evolves hpaired).instead (hcome.evolves (by simp)) hholds hnodup hcensus
  | @each _ w witness items items' rest σ₁ _ _ hword hphrases hitems hrest =>
      have hswept : (∀ r ∈ items, r.Paired) →
          EvolvesAll ρ b c.parent (Ahead (some witness)) σ items σ' items' := fun hpaired =>
        (swept_evolves (fun h => hrender h) (fun h => hdiff hadmits h) hitems hrest hpaired).evaluated
          (evaluation_of Engine.eachPhrases_inWorld hphrases)
      refine .part (Ahead (some witness)) (by simp) (by simp) rfl rfl (.inl rfl) (hrenewed rfl) (fun _ _ => by
          simp [Ahead, topsAt_cons, Slot.inside, Slot.mark, Slot.ends, Mark.tops])
        (fun hpaired => (hswept hpaired).renewal hpaired) fun hpaired hholds hnodup hcensus hfollows => ?_
      refine ((hswept hpaired).evolves hpaired).moves hholds hnodup hcensus (hfollows.parts fun e' he => ?_)
      rw [← hadmits e' he]
      simp [Engine.renews, hword]
  | @raw witness nodes _ hword =>
      refine .single (by simp) (by simp) rfl rfl rfl (fun _ => hadmits.suits (.of_word hword rfl))
        (fun _ _ _ hallows left right hp => ?_) (.other .refl (by simp [Slot.mark]) (by simp [Slot.mark]))
      have htaken : Move ρ b σ (left ++ ⟨c.parent, lexem, .nodes (nodes ++ [witness])⟩ :: right) _
          (left ++ ⟨c.parent, lexem, .nodes [witness]⟩ :: right) := .taken (.all nodes σ.host)
      have hp₁ := Nat.lt_of_lt_of_le hp htaken.count_le
      have hput : Move ρ b _ (left ++ ⟨c.parent, lexem, .nodes ([] ++ [witness])⟩ :: right) _
          (left ++ ⟨c.parent, lexem, .nodes ([] ++ _ :: [witness])⟩ :: right) :=
        .put hp₁ (Host.insertRaw_adds (lexem.arg 0).toText hp₁) fun _ => rfl
      exact (Moves.one (.renamed (.inl rfl) hallows)).trans ((Moves.one htaken).trans (.one hput))
  | hook hspace hword hhook harg hcall =>
      have hold := Lexem.hookArg_of_same hhook harg
      refine .single (by simp) (by simp) rfl rfl rfl (fun _ => hadmits.suits (.hook hspace hword hhook))
        (fun hnodes _ _ hallows left right _ => ?_) (.turn (.diffed hhook hold) rfl rfl fun ear => ear.diff hcall)
      exact .one (.rehooked hhook hold (hnodes (.diff hcall)) hcall (Engine.ofName_of_instruction hword) hallows)
  | rehooked hspace hword hhook holdHook harg hremove hcall =>
      have hne := Lexem.hookArg_ne hhook holdHook harg
      refine .single (by simp) (by simp) rfl rfl rfl (fun _ => hadmits.suits (.hook hspace hword hhook))
        (fun hnodes _ _ hallows left right _ => ?_) (.turn (.replaced hhook holdHook hne) rfl rfl fun ear => ?_)
      · exact (Moves.one (.unhooked holdHook (hnodes (.remove hremove)) hremove)).trans
          (.one (.hooked hhook (hnodes (.render hcall)) hcall (Engine.ofName_of_instruction hword) hallows))
      · rw [Stage.inWorld_world, ear.render hcall, ear.remove hremove, List.append_assoc]
        rfl
  | callback _ hword _ _ hcall =>
      exact .again hadmits hcongruent (fun _ => .one (.acted (.callback hcall))) (.acted (.callback hcall)) rfl
        (fun _ => rfl)
        (.inr (.inr ⟨_, hword, rfl⟩))
  | name _ hword hname =>
      obtain ⟨t, rfl, hsize, hagree⟩ := nameNode_ok hname
      exact .again hadmits hcongruent (fun _ => .one (.tabled t (.of_agree hagree))) .refl hsize hagree
        (.inr (.inr ⟨_, hword, rfl⟩))
  | component _ _ _ _ _ htold hupdate =>
      exact .acted (.lifecycle htold) (update_evolves hdiff hdiffs (hrenewed rfl) hupdate)

/-- The slots of a sentence that is rendered come one after the other. -/
theorem renderChain_evolves (hadmits : ρ.Admits e) (hrender : RenderEvolves ρ b render)
    (hrenders : Renders (Watch.blind b) render) {lexems : List Lexem} {slots : List Slot}
    (h : Chain (Engine.renderLexem b render e c) lexems σ slots σ') :
    Evolves ρ b c.parent (Ahead c.anchor) σ [] [] σ' lexems slots := by
  induction h with
  | nil => exact .refl
  | cons head _ ih =>
      exact (RenderStep.evolves hadmits hrender hrenders (Engine.renderLexem_step head)).append_new ih

/-- The slots of a sentence that is diffed come in the place of those before, one by one. -/
theorem DiffSteps.evolves (hadmits : ρ.Admits e) (hrender : RenderEvolves ρ b render)
    (hrenders : Renders (Watch.blind b) render) (hdiff : DiffEvolves ρ b diff)
    (hdiffs : Diffs (Watch.blind b) diff) {lexems olds : List Lexem} {slots slots' : List Slot}
    (h : Engine.DiffSteps b render diff e c lexems olds slots σ slots' σ') :
    Evolves ρ b c.parent goal σ olds slots σ' lexems slots' := by
  induction h with
  | nil => exact .refl
  | @cons lexem old _ _ slot slot' _ _ σ σ₁ _ hcongruent head _ ih =>
      have hfirst : Evolves ρ b c.parent (fun _ => True) σ [old] [slot] σ₁ [lexem] [slot'] :=
        DiffStep.evolves hadmits hcongruent hrender hrenders hdiff hdiffs head
      exact Evolves.beside (by simp) rfl rfl hfirst ih

end Steps

variable {depth : Nat}

theorem renderWithin_evolves (hadmits : ρ.Admits e) :
    RenderEvolves ρ b (Engine.renderWithin b depth e) := by
  induction depth with
  | zero =>
      intro c phrase σ r σ' h
      cases h
  | succ depth ih =>
      intro c phrase σ r σ' h
      refine ⟨renderWithin_renewal _ h, fun _ => ?_⟩
      obtain ⟨slots, rfl, hchain⟩ := Engine.renderPhrase_ok h
      simpa using renderChain_evolves hadmits ih (renderWithin_renewal _) hchain

theorem diffWithin_evolves : DiffEvolves ρ b (Engine.diffWithin b depth) := by
  induction depth with
  | zero =>
      intro e c phrase previous σ r σ' _ h
      cases h
  | succ depth ih =>
      intro e c phrase previous σ r σ' hadmits h
      have hcases : previous.Paired → _ := fun hpaired => Engine.diffPhrase_ok hpaired h
      refine ⟨fun hpaired => ?_, diffWithin_renewal _ h, fun hpaired => ?_⟩
      · rcases hcases hpaired with ⟨-, rfl, -⟩ | ⟨-, slots, rfl, hsteps⟩
        · rfl
        · exact hsteps.lexems_length
      · rcases hcases (hpaired previous List.mem_cons_self) with ⟨-, rfl, rfl⟩ | ⟨-, slots, rfl, hsteps⟩
        · exact .refl
        · simpa using DiffSteps.evolves hadmits (renderWithin_evolves hadmits) (renderWithin_renewal _) ih
            (diffWithin_renewal _) hsteps

end Parlance
