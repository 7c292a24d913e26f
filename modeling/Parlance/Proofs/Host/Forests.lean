import Mathlib.Logic.Relation
import Parlance.Proofs.Host.Links

/-! Hosts as forests. Whatever is done to a host by the rules is made of few kinds of steps: writing, which moves no
node; putting a new node under a parent; and taking a child off its parent. Such work keeps a forest, and the calls
that are recorded for it are fair. -/

namespace Parlance.Host

open Ledger

/-- The two sides of every link agree, no child is listed twice, and no node stands below itself. -/
structure Forest (h : Host) : Prop where
  links : ∀ p c, c ∈ h.children p ↔ h.parent c = some p
  nodup : ∀ p, (h.children p).Nodup
  acyclic : ∀ n, ¬ Relation.TransGen (fun p c => h.parent c = some p) n n

/-- One node stands somewhere below another. -/
def Below (h : Host) : NodeId → NodeId → Prop := Relation.TransGen fun p c => h.parent c = some p

/-- One node is another, or stands somewhere below it. -/
def AtOrBelow (h : Host) : NodeId → NodeId → Prop := Relation.ReflTransGen fun p c => h.parent c = some p

/-- Nodes that were there are still there, each with the parent that it had or with none. -/
structure Later (h h' : Host) : Prop where
  count : h.count ≤ h'.count
  parent : ∀ n, n.index < h.count → h'.parent n = h.parent n ∨ h'.parent n = none

/-- A step by the rules. -/
inductive Work (R : Rules) : Host → Host → Prop
  | quiet {h h' : Host} {ms : List Mutation} (htree : SameTree h h') (hparent : ∀ n, h'.parent n = h.parent n)
      (hcalls : h'.calls = h.calls ++ ms)
      (hms : ∀ m ∈ ms, ∃ n, m.inscribed? = some n ∧ (R.inside → n.index < h.count)) : Work R h h'
  | adds {h h' : Host} {p : NodeId} {anchor : Option NodeId} (hfirst : R.first ≤ h.count) (hp : p.index < h.count)
      (hanchor : R.inside → ∀ a ∈ anchor, a.index < h.count) (hadds : Adds p anchor h h') : Work R h h'
  | drops {h h' : Host} {p : NodeId} {ns : List NodeId} (hp : R.inside → p.index < h.count) (hnodup : ns.Nodup)
      (hns : ∀ n ∈ ns, n.index < h.count ∧ (h.parent n = some p ∨ R.failed ∧ h.parent n = none))
      (hdrops : Drops p ns h h') : Work R h h'

/-- Any number of steps by the rules. -/
def Works (R : Rules) : Host → Host → Prop := Relation.ReflTransGen (Work R)

variable {R : Rules} {h h₁ h' : Host} {p n : NodeId} {anchor : Option NodeId}

namespace Later

theorem refl (h : Host) : Later h h := ⟨Nat.le_refl _, fun _ _ => .inl rfl⟩

theorem trans (hfirst : Later h h₁) (hsecond : Later h₁ h') : Later h h' := by
  refine ⟨Nat.le_trans hfirst.count hsecond.count, fun n hn => ?_⟩
  rcases hsecond.parent n (Nat.lt_of_lt_of_le hn hfirst.count) with heq | hnone
  · rw [heq]
    exact hfirst.parent n hn
  · exact .inr hnone

end Later

/-- Nodes are taken off their parent one after the other. -/
theorem fair_removals {L : Ledger} {ns : List NodeId} (hp : R.inside → p.index < L.count) (hnodup : ns.Nodup)
    (hns : ∀ n ∈ ns, n.index < L.count ∧ (L.parent n = some p ∨ R.failed ∧ L.parent n = none)) :
    L.run (ns.map (.remove p ·)) = { L with parent := fun m => if m ∈ ns then none else L.parent m } ∧
      Each (Fair R) L (ns.map (.remove p ·)) := by
  induction ns generalizing L with
  | nil => exact ⟨by simp [run], trivial⟩
  | cons n ns ih =>
      obtain ⟨hn, hnodup⟩ := List.nodup_cons.mp hnodup
      obtain ⟨hrun, heach⟩ := ih (L := L.after (.remove p n)) hp hnodup fun m hm => by
        obtain ⟨hlt, hparent⟩ := hns m (List.mem_cons_of_mem _ hm)
        have hne : m ≠ n := fun heq => hn (heq ▸ hm)
        refine ⟨hlt, ?_⟩
        simpa only [after, if_neg hne] using hparent
      obtain ⟨hlt, hparent⟩ := hns n List.mem_cons_self
      refine ⟨?_, ⟨fun hinside m hm => ?_, hparent⟩, heach⟩
      · rw [List.map_cons, run, List.foldl_cons]
        refine hrun.trans ?_
        simp only [after, List.mem_cons]
        refine congrArg (Ledger.mk L.count) (funext fun m => ?_)
        by_cases hm : m = n <;> simp [hm]
      · simp only [Mutation.named, List.mem_cons, List.not_mem_nil, or_false] at hm
        rcases hm with rfl | rfl
        · exact hp hinside
        · exact hlt

namespace Work

theorem later (hwork : Work R h h') : Later h h' := by
  cases hwork with
  | quiet htree hparent => exact ⟨Nat.le_of_eq htree.count.symm, fun n _ => .inl (hparent n)⟩
  | adds _ _ _ hadds =>
      refine ⟨Nat.le_of_succ_le (Nat.le_of_eq hadds.puts.count.symm), fun n hn => .inl ?_⟩
      rw [hadds.parent, if_neg]
      rintro rfl
      exact Nat.lt_irrefl _ hn
  | drops _ _ _ hdrops =>
      refine ⟨Nat.le_of_eq hdrops.takes.count.symm, fun n _ => ?_⟩
      rw [hdrops.parent]
      split
      · exact .inr rfl
      · exact .inl rfl

/-- The calls that are recorded for a step are fair. -/
theorem receives (hwork : Work R h h') : Receives (Fair R) h h' := by
  cases hwork with
  | quiet htree hparent hcalls hms =>
      refine .inscribed htree.count hparent hcalls (fun m hm => (hms m hm).imp fun _ => And.left) fun m hm => ?_
      obtain ⟨n, hn, hinside⟩ := hms m hm
      exact fair_inscribed hn hinside
  | @adds p anchor hfirst hp hanchor hadds =>
      have hcount := hadds.puts.count
      have hfree : h.parent h.next = none := parent_of_count_le (Nat.le_of_eq (next_index h).symm)
      have hledger : h'.ledger = ⟨h.count + 1, fun m => if m = h.next then some p else h.parent m⟩ := by
        rw [ledger, hcount, funext hadds.parent]
      obtain ⟨ms, hcalls, hplacing⟩ := hadds.calls
      have hlt : h.next.index < h.count + 1 := Nat.lt_succ_self _
      -- the node is made by the first of two calls, and put by the second
      have hmade : ∀ {m m' : Mutation}, m.made? = some h.next → m' = .append p h.next ∨
          (∃ a ∈ anchor, m' = .insertBefore p h.next a) → h'.calls = h.calls ++ [m, m'] → Receives (Fair R) h h' := by
        intro m m' hm hm' hcalls
        have hafter : h.ledger.after m = ⟨h.count + 1, h.parent⟩ := after_made hm
        have hput : Fair R ⟨h.count + 1, h.parent⟩ m' := by
          have hplaced : p.index < h.count + 1 ∧ R.first ≤ h.next.index ∧ h.next.index < h.count + 1 ∧
              h.parent h.next = none := ⟨Nat.lt_succ_of_lt hp, hfirst, hlt, hfree⟩
          rcases hm' with rfl | ⟨a, ha, rfl⟩
          · refine ⟨fun _ => ?_, hplaced⟩
            simpa [Mutation.named, hlt] using hplaced.1
          · refine ⟨fun hinside => ?_, hplaced⟩
            simpa [Mutation.named, hlt] using And.intro hplaced.1 (Nat.lt_succ_of_lt (hanchor hinside a ha))
        refine ⟨[m, m'], hcalls, ?_, fair_made hm, hafter ▸ hput, trivial⟩
        rw [run, List.foldl_cons, List.foldl_cons, hafter, hledger]
        rcases hm' with rfl | ⟨a, -, rfl⟩ <;> rfl
      cases hplacing with
      | append hm => exact hmade hm (.inl rfl) hcalls
      | @insert _ a _ hm => exact hmade hm (.inr ⟨a, rfl, rfl⟩) hcalls
      | raw markup =>
          refine ⟨_, hcalls, ?_, ⟨fun _ n hn => ?_, hp⟩, trivial⟩
          · rw [hledger]
            rfl
          · obtain rfl : n = p := by simpa [Mutation.named] using hn
            exact hp
  | @drops p ns hp hnodup hns hdrops =>
      obtain ⟨hrun, heach⟩ := fair_removals (L := h.ledger) hp hnodup hns
      refine ⟨_, hdrops.calls, ?_, heach⟩
      rw [hrun, ledger, ledger, hdrops.takes.count, funext hdrops.parent]

end Work

theorem putBefore_perm (n : NodeId) (anchor : Option NodeId) (ns : List NodeId) :
    (putBefore n anchor ns).Perm (n :: ns) := by
  cases anchor with
  | none => exact List.perm_append_comm
  | some a =>
      rw [putBefore]
      induction ns with
      | nil => exact .refl _
      | cons c ns ih =>
          rw [placeBefore]
          split
          · exact .refl _
          · exact (ih.cons c).trans (.swap n c ns)

namespace Forest

variable (hforest : Forest h)
include hforest

/-- Whoever has children is there. -/
theorem parent_lt {c : NodeId} (hc : h.parent c = some p) : p.index < h.count := by
  refine Nat.lt_of_not_le fun hle => ?_
  have hmem := (hforest.links p c).mpr hc
  rw [children, node, Array.getD_eq_getD_getElem?, Array.getElem?_eq_none hle] at hmem
  cases hmem

theorem quiet (htree : SameTree h h') (hparent : ∀ n, h'.parent n = h.parent n) : Forest h' where
  links p c := by rw [htree.children, hparent, hforest.links]
  nodup p := by rw [htree.children]; exact hforest.nodup p
  acyclic n := by
    simp only [hparent]
    exact hforest.acyclic n

/-- A node that stands nowhere is put under a node that is not under it. -/
theorem puts (hfree : h.parent n = none) (hpn : ¬ h.AtOrBelow n p)
    (hchildren : ∀ q, h'.children q = if q = p then putBefore n anchor (h.children q) else h.children q)
    (hparent : ∀ m, h'.parent m = if m = n then some p else h.parent m) : Forest h' := by
  have hnone : ∀ q, n ∉ h.children q := fun q hmem => by
    rw [hforest.links, hfree] at hmem
    cases hmem
  have hput := putBefore_perm n anchor (h.children p)
  refine ⟨fun q c => ?_, fun q => ?_, fun m hcycle => ?_⟩
  · rw [hchildren, hparent]
    by_cases hc : c = n
    · subst hc
      by_cases hq : q = p
      · simp [hq, hput.mem_iff]
      · simp [hq, hnone, Ne.symm hq]
    · by_cases hq : q = p
      · simp [hq, hc, hput.mem_iff, hforest.links]
      · simp [hq, hc, hforest.links]
  · rw [hchildren]
    by_cases hq : q = p
    · rw [if_pos hq, hq]
      exact hput.nodup_iff.mpr (List.nodup_cons.mpr ⟨hnone p, hforest.nodup p⟩)
    · rw [if_neg hq]
      exact hforest.nodup q
  · have hlink : ∀ {b c}, h'.parent c = some b → c = n ∧ b = p ∨ h.parent c = some b := by
      intro b c hc
      rw [hparent] at hc
      split at hc
      next heq => exact .inl ⟨heq, (Option.some.inj hc).symm⟩
      next => exact .inr hc
    -- a way down that takes the new link comes to it from at or above the parent, and stays at or below the node
    have hway : ∀ {a b}, h'.Below a b → h.Below a b ∨ h.AtOrBelow a p ∧ h.AtOrBelow n b := by
      intro a b hbelow
      induction hbelow with
      | single hab =>
          rcases hlink hab with ⟨rfl, rfl⟩ | hold
          · exact .inr ⟨.refl, .refl⟩
          · exact .inl (.single hold)
      | tail _ hbc ih =>
          rcases hlink hbc with ⟨rfl, rfl⟩ | hold
          · rcases ih with habove | ⟨-, hbelow⟩
            · exact .inr ⟨habove.to_reflTransGen, .refl⟩
            · exact absurd hbelow hpn
          · exact ih.imp (·.tail hold) fun ⟨habove, hbelow⟩ => ⟨habove, hbelow.tail hold⟩
    rcases hway hcycle with hold | ⟨habove, hbelow⟩
    · exact hforest.acyclic m hold
    · exact hpn (hbelow.trans habove)

theorem adds (hp : p.index < h.count) (hadds : Adds p anchor h h') : Forest h' := by
  have hnext : h.count ≤ h.next.index := Nat.le_of_eq (next_index h).symm
  refine hforest.puts (parent_of_count_le hnext) (fun hle => ?_) hadds.puts.children hadds.parent
  -- nothing stands under a node that is not made yet
  rcases Relation.ReflTransGen.cases_head hle with rfl | ⟨c, hlink, -⟩
  · exact Nat.not_le.mpr hp hnext
  · exact Nat.not_le.mpr (hforest.parent_lt hlink) hnext

theorem drops {ns : List NodeId} (hns : ∀ n ∈ ns, h.parent n = some p ∨ h.parent n = none) (hdrops : Drops p ns h h') :
    Forest h' := by
  have hlink : ∀ {q c}, h'.parent c = some q → c ∉ ns ∧ h.parent c = some q := by
    intro q c hc
    rw [hdrops.parent] at hc
    split at hc
    next => cases hc
    next hmem => exact ⟨hmem, hc⟩
  refine ⟨fun q c => ⟨fun hc => ?_, fun hc => ?_⟩, fun q => ?_, fun m hcycle => ?_⟩
  · rw [hdrops.takes.children] at hc
    rw [hdrops.parent]
    split at hc
    next =>
      rw [List.mem_filter, decide_eq_true_iff, hforest.links] at hc
      rw [if_neg hc.2, hc.1]
    next hq =>
      rw [hforest.links] at hc
      rw [if_neg, hc]
      intro hmem
      rcases hns c hmem with heq | hnone
      · rw [heq, Option.some.injEq] at hc
        exact hq hc.symm
      · simp [hnone] at hc
  · obtain ⟨hmem, hc⟩ := hlink hc
    rw [← hforest.links] at hc
    rw [hdrops.takes.children]
    split
    · exact List.mem_filter.mpr ⟨hc, decide_eq_true hmem⟩
    · exact hc
  · rw [hdrops.takes.children]
    split
    · exact (hforest.nodup q).filter _
    · exact hforest.nodup q
  · exact hforest.acyclic m (Relation.TransGen.mono (fun _ _ hstep => (hlink hstep).2) m m hcycle)

end Forest

/-- A host with nothing but its root is a forest. -/
theorem forest_new : new.Forest := by
  have hnone : ∀ n : NodeId, new.node n = new.node root := by
    rintro ⟨_ | n⟩ <;> rfl
  have hparent : ∀ c, new.parent c = none := fun c => by rw [Host.parent, hnone c]; rfl
  have hchildren : ∀ p, new.children p = [] := fun p => by rw [Host.children, hnone p]; rfl
  refine ⟨fun p c => by simp [hparent, hchildren], fun p => by simp [hchildren], fun n hcycle => ?_⟩
  obtain ⟨c, hlink, -⟩ := Relation.TransGen.head'_iff.mp hcycle
  simp [hparent] at hlink

namespace Works

theorem refl (h : Host) : Works R h h := Relation.ReflTransGen.refl

theorem trans (hfirst : Works R h h₁) (hsecond : Works R h₁ h') : Works R h h' :=
  Relation.ReflTransGen.trans hfirst hsecond

theorem one (hwork : Work R h h') : Works R h h' := Relation.ReflTransGen.single hwork

theorem later (hworks : Works R h h') : Later h h' := by
  induction hworks with
  | refl => exact .refl h
  | tail _ hwork ih => exact ih.trans hwork.later

/-- Work by the rules is told by fair calls. -/
theorem receives (hworks : Works R h h') : Receives (Fair R) h h' := by
  induction hworks with
  | refl => exact .refl h
  | tail _ hwork ih => exact ih.trans hwork.receives

/-- Work by the rules keeps a forest. -/
theorem forest (hworks : Works R h h') (hforest : Forest h) : Forest h' := by
  induction hworks with
  | refl => exact hforest
  | tail _ hwork ih =>
      cases hwork with
      | quiet htree hparent => exact ih.quiet htree hparent
      | adds _ hp _ hadds => exact ih.adds hp hadds
      | drops _ _ hns hdrops => exact ih.drops (fun n hn => (hns n hn).2.imp_right And.right) hdrops

end Works

end Parlance.Host
