import Parlance.Proofs.Engine.Naming
import Parlance.Proofs.Engine.Opening
import Parlance.Proofs.Engine.Progress

/-! What passes do to the names that components have for nodes. Every pass is a turn that notes the names which its
output gives: rendering enters them, a diff enters those of the words that it goes through, and a removal forgets all
names of the components that it takes away. Nothing else touches a name, so what is no longer given stays. -/

namespace Parlance

open Pass

/-- The node that a component has under a name. -/
def named (t : Array Instance) (id : InstanceId) (name : String) : Option NodeId :=
  (t[id.index]?).bind fun i => i.refs.get? name

/-- A component that was there, and that has no output any more. -/
structure Dismissed (t t' : Array Instance) (id : InstanceId) : Prop where
  made : id.index < t'.size
  live : id.index < t.size → ¬ Vacant t id
  vacant : Vacant t' id

/-- Names are entered anew by namings of afterwards, or they stay, and then no naming is new. -/
def Noted (t : Array Instance) (W : List Naming) (t' : Array Instance) (W' : List Naming) : Prop :=
  ∀ id name, Dismissed t t' id ∨ (∃ node, named t' id name = some node ∧ ⟨id, name, node⟩ ∈ W') ∨
    (named t' id name = named t id name ∧ ∀ node, ⟨id, name, node⟩ ∈ W' → ⟨id, name, node⟩ ∈ W)

section Tables

variable {t t' t₁ : Array Instance} {W W₁ W' V V' : List Naming} {id : InstanceId} {name : String}

theorem named_modify (f : Instance → Instance) (hf : ∀ i, (f i).refs = i.refs) (k : Nat) :
    named (t.modify k f) id name = named t id name := by
  rw [named, Array.getElem?_modify]
  split
  · rw [named, Option.bind_map]
    exact congrArg _ (funext fun i => by rw [Function.comp_apply, hf])
  · rfl

theorem named_push {i : Instance} (hi : i.refs = []) : named (t.push i) id name = named t id name := by
  unfold named
  rw [Array.getElem?_push]
  split
  next heq =>
    rw [Array.getElem?_eq_none (Nat.le_of_eq heq.symm), Option.bind_some, Option.bind_none, hi]
    rfl
  next => rfl

theorem named_unmountAll {ids : List InstanceId} (hid : id ∉ ids) : named (unmountAll t ids) id name = named t id name := by
  induction ids generalizing t with
  | nil => rfl
  | cons own ids ih =>
      rw [List.mem_cons, not_or] at hid
      refine (ih hid.2).trans ?_
      rw [named, named, Array.getElem?_modify, if_neg fun heq => hid.1 (by cases own; cases id; exact congrArg _ heq.symm)]

namespace Noted

theorem same (hnamed : ∀ id name, named t' id name = named t id name) (hsub : ∀ naming ∈ W', naming ∈ W) :
    Noted t W t' W' := fun id name => .inr (.inr ⟨hnamed id name, fun _ => hsub _⟩)

/-- What is noted of pieces that stand side by side is noted of them together. -/
theorem append (h : Noted t W t₁ W₁) (h' : Noted t₁ V t' V') (hfirst : ∀ id, Dismissed t t₁ id → Dismissed t t' id)
    (hsecond : ∀ id, Dismissed t₁ t' id → Dismissed t t' id) : Noted t (W ++ V) t' (W₁ ++ V') := by
  intro id name
  rcases h' id name with hgone | ⟨node, hnamed, hnode⟩ | ⟨hsame, hold⟩
  · exact .inl (hsecond id hgone)
  · exact .inr (.inl ⟨node, hnamed, List.mem_append_right _ hnode⟩)
  rcases h id name with hgone | ⟨node, hnamed, hnode⟩ | ⟨hsame₁, hold₁⟩
  · exact .inl (hfirst id hgone)
  · exact .inr (.inl ⟨node, hsame.trans hnamed, List.mem_append_left _ hnode⟩)
  · refine .inr (.inr ⟨hsame.trans hsame₁, fun node hnode => ?_⟩)
    rw [List.mem_append] at hnode ⊢
    exact hnode.imp (hold₁ node) (hold node)

theorem mono (h : Noted t W t' W') (hsub : ∀ naming ∈ W, naming ∈ V) (hsub' : ∀ naming, naming ∈ V' ↔ naming ∈ W') :
    Noted t V t' V' := fun id name => (h id name).imp_right fun h => h.imp
      (fun ⟨node, hnamed, hnode⟩ => ⟨node, hnamed, (hsub' _).mpr hnode⟩)
      fun ⟨hsame, hold⟩ => ⟨hsame, fun node hnode => hsub _ (hold node ((hsub' _).mp hnode))⟩

end Noted

end Tables

variable {ω : Type} {b : Behaviour ω}

variable (b) in
/-- A turn by which the names of nodes are noted. -/
structure Recalls (owner : Option (InstanceId × Engine)) (p : NodeId) (σ : Stage ω) (olds : List Lexem)
    (slots : List Slot) (σ' : Stage ω) (lexems : List Lexem) (slots' : List Slot) : Prop where
  turn : Turn (blind b) σ slots σ' slots'
  noted : ∀ {cs W}, (∀ o ∈ owner, o.1.index < σ.instances.size) → Holds σ.instances slots cs → cs.Nodup →
    Namings σ.instances owner p olds slots W →
      ∃ W', Namings σ'.instances owner p lexems slots' W' ∧ Noted σ.instances W σ'.instances W'

variable (b) in
/-- The same for outputs with one slot for every lexem. -/
structure RecallsAll (owner : Option (InstanceId × Engine)) (p : NodeId) (σ : Stage ω) (rs : List Rendered)
    (σ' : Stage ω) (rs' : List Rendered) : Prop where
  renewal : Renewal (blind b) σ rs σ' rs'
  recalls : (∀ r ∈ rs, r.Paired) → Recalls b owner p σ (lexemsOf rs) (slotsOf rs) σ' (lexemsOf rs') (slotsOf rs')

variable {owner : Option (InstanceId × Engine)} {p : NodeId} {σ σ₁ σ' : Stage ω}

namespace Recalls

variable {olds olds₂ lexems lexems₂ : List Lexem} {slots slots₂ slots' slots₂' : List Slot} {slot slot' : Slot}
variable {lexem old : Lexem}

theorem refl : Recalls b owner p σ lexems slots σ lexems slots where
  turn := .refl
  noted _ _ _ hnamings := ⟨_, hnamings, .same (fun _ _ => rfl) fun _ h => h⟩

/-- The table is left alone before a pass. -/
theorem before (h : Recalls b owner p σ₁ olds slots σ' lexems slots') (hsame : σ₁.instances = σ.instances) :
    Recalls b owner p σ olds slots σ' lexems slots' := by
  refine ⟨(Turn.same hsame).trans h.turn, ?_⟩
  rw [← hsame]
  exact h.noted

/-- The table is left alone after a pass. -/
theorem after (h : Recalls b owner p σ olds slots σ₁ lexems slots') (hsame : σ'.instances = σ₁.instances) :
    Recalls b owner p σ olds slots σ' lexems slots' := by
  refine ⟨h.turn.trans (.same hsame), ?_⟩
  rw [hsame]
  exact h.noted

/-- Pieces that stand side by side, one after the other. -/
theorem append (hlength : olds.length = slots.length) (h : Recalls b owner p σ olds slots σ₁ lexems slots')
    (h' : Recalls b owner p σ₁ olds₂ slots₂ σ' lexems₂ slots₂') :
    Recalls b owner p σ (olds ++ olds₂) (slots ++ slots₂) σ' (lexems ++ lexems₂) (slots' ++ slots₂') where
  turn := (h.turn.append_right _).trans (h'.turn.append_left _)
  noted hbound hholds hnodup hnamings := by
    obtain ⟨as, cs, rfl, ha, hc⟩ := hholds.split
    obtain ⟨W, V, rfl, hW, hV⟩ := hnamings.split hlength
    obtain ⟨hnodupA, hnodupC, hdisjoint⟩ := List.nodup_append.mp hnodup
    obtain ⟨as', ha', hexchange⟩ := h.turn as ha (mounted_blind hnodupA)
    have hagree : ∀ id ∈ cs, Agree σ.instances σ₁.instances id := fun id hid =>
      hexchange.agree id (hc.index_lt id hid) fun hmem => hdisjoint id hmem id hid rfl
    have hc₁ := hc.congr hagree
    obtain ⟨cs', hc', hexchange'⟩ := h'.turn cs hc₁ (mounted_blind hnodupC)
    have hagree' : ∀ id ∈ as', Agree σ₁.instances σ'.instances id := fun id hid =>
      hexchange'.agree id (ha'.index_lt id hid) fun hmem => by
        rcases hexchange.source id hid with hold | hnew
        · exact hdisjoint id hold id hmem rfl
        · exact absurd (hc.index_lt id hmem) (Nat.not_lt.mpr hnew)
    obtain ⟨W', hW', hnoted⟩ := h.noted hbound ha hnodupA hW
    obtain ⟨V', hV', hnoted'⟩ := h'.noted (fun o ho => Nat.lt_of_lt_of_le (hbound o ho) hexchange.grows) hc₁ hnodupC
      (hV.congr hc hagree)
    refine ⟨W' ++ V', (hW'.congr ha' hagree').append hV', hnoted.append hnoted' ?_ ?_⟩
    · -- who has no output is not held, and so has none afterwards either
      rintro id ⟨hmade, hlive, hvacant⟩
      have hnot : id ∉ cs := fun hid => hc₁.not_vacant id hid hvacant
      exact ⟨Nat.lt_of_lt_of_le hmade hexchange'.grows, hlive, (hexchange'.agree id hmade hnot).vacant hvacant⟩
    · rintro id ⟨hmade, hlive, hvacant⟩
      refine ⟨hmade, fun hlt hbefore => ?_, hvacant⟩
      have hnot : id ∉ as := fun hid => ha.not_vacant id hid hbefore
      exact hlive (Nat.lt_of_lt_of_le hlt hexchange.grows) ((hexchange.agree id hlt hnot).vacant hbefore)

/-- A slot stays, under a word that names nothing. -/
theorem stay (hsame : σ'.instances = σ.instances) (hword : lexem.naming owner p = []) :
    Recalls b owner p σ [old] [slot] σ' [lexem] [slot] where
  turn := .same hsame
  noted _ _ _ hnamings := by
    rw [hsame]
    cases hnamings with
    | part hslot hinner houter =>
        cases houter
        refine ⟨_, .part hslot hinner .nil, .same (fun _ _ => rfl) fun naming hnaming => ?_⟩
        rw [hword] at hnaming
        simp only [List.append_nil, List.mem_append] at hnaming ⊢
        exact .inl hnaming
    | component hpresent hdeveloped hinner houter =>
        cases houter
        refine ⟨_, .component hpresent hdeveloped hinner .nil, .same (fun _ _ => rfl) fun naming hnaming => ?_⟩
        rw [hword] at hnaming
        simp only [List.append_nil, List.mem_append] at hnaming ⊢
        exact .inl hnaming

/-- A slot without a component comes in the place of another one, by what happens inside. -/
theorem part (hslot : ∀ id, slot ≠ .component id) (hslot' : ∀ id, slot' ≠ .component id)
    (hinside : slot'.inside p = slot.inside p) (hword : lexem.naming owner p = [])
    (h : RecallsAll b owner (slot.inside p) σ slot.parts σ' slot'.parts) :
    Recalls b owner p σ [old] [slot] σ' [lexem] [slot'] where
  turn := .part hslot hslot' h.renewal
  noted hbound hholds hnodup hnamings := by
    cases hholds with
    | component => exact absurd rfl (hslot _)
    | part _ hpaired hheld houter =>
    cases houter
    cases hnamings with
    | component => exact absurd rfl (hslot _)
    | part _ hinner houter =>
    cases houter
    rw [List.append_nil] at hnodup
    obtain ⟨W', hW', hnoted⟩ := (h.recalls hpaired).noted hbound hheld hnodup hinner
    refine ⟨_, .part hslot' (hinside ▸ hW') .nil, hnoted.mono (fun naming hnaming => ?_) fun naming => ?_⟩
    · simp [hnaming]
    · simp [hword]

/-- A new slot without a component, by what happens inside. -/
theorem born (hslot' : ∀ id, slot' ≠ .component id) (hword : lexem.naming owner p = [])
    (h : RecallsAll b owner (slot'.inside p) σ [] σ' slot'.parts) : Recalls b owner p σ [] [] σ' [lexem] [slot'] where
  turn := .born hslot' h.renewal
  noted hbound hholds hnodup hnamings := by
    cases hholds
    cases hnamings
    obtain ⟨W', hW', hnoted⟩ := (h.recalls (by simp)).noted hbound .nil hnodup .nil
    refine ⟨_, .part hslot' hW' .nil, hnoted.mono (fun _ h => h) fun naming => ?_⟩
    simp [hword]

end Recalls

namespace RecallsAll

variable {rs rs' rs₂ rs₂' rest : List Rendered}

theorem refl : RecallsAll b owner p σ rs σ rs := ⟨.refl, fun _ => .refl⟩

theorem before (h : RecallsAll b owner p σ₁ rs σ' rs') (hsame : σ₁.instances = σ.instances) :
    RecallsAll b owner p σ rs σ' rs' :=
  ⟨(Renewal.same hsame).trans h.renewal, fun hpaired => (h.recalls hpaired).before hsame⟩

theorem after (h : RecallsAll b owner p σ rs σ₁ rs') (hsame : σ'.instances = σ₁.instances) :
    RecallsAll b owner p σ rs σ' rs' :=
  ⟨h.renewal.trans (.same hsame), fun hpaired => (h.recalls hpaired).after hsame⟩

theorem append (h : RecallsAll b owner p σ rs σ₁ rs') (h' : RecallsAll b owner p σ₁ rs₂ σ' rs₂') :
    RecallsAll b owner p σ (rs ++ rs₂) σ' (rs' ++ rs₂') := by
  refine ⟨(h.renewal.append_right rs₂).trans (h'.renewal.append_left rs'), fun hpaired => ?_⟩
  have hfirst : ∀ r ∈ rs, r.Paired := fun r hr => hpaired r (List.mem_append_left _ hr)
  simp only [lexemsOf_append, slotsOf_append]
  exact (h.recalls hfirst).append (length_lexemsOf hfirst)
    (h'.recalls fun r hr => hpaired r (List.mem_append_right _ hr))

theorem chain {α : Type} {f : α → Pass ω Rendered} {as : List α}
    (hstep : ∀ {a σ r σ'}, f a σ = .ok r σ' → RecallsAll b owner p σ [] σ' [r]) (h : Chain f as σ rs σ') :
    RecallsAll b owner p σ [] σ' rs := by
  induction h with
  | nil => exact .refl
  | cons head _ ih => exact (hstep head).append ih

/-- Outputs brought up to a list of things, and those that are left over taken away. -/
theorem matching {α : Type} {new : α → Stage ω → Rendered → Stage ω → Prop}
    {kept : α → Rendered → Stage ω → Rendered → Stage ω → Prop} {as : List α} {olds : List Rendered}
    (hnew : ∀ {a σ r σ'}, new a σ r σ' → RecallsAll b owner p σ [] σ' [r])
    (hkept : ∀ {a old σ r σ'}, kept a old σ r σ' → RecallsAll b owner p σ [old] σ' [r])
    (h : Engine.Matching new kept as olds σ rs rest σ₁) (hrest : RecallsAll b owner p σ₁ rest σ' []) :
    RecallsAll b owner p σ olds σ' rs := by
  induction h with
  | rest => exact hrest
  | new head _ ih => exact (hnew head).append (ih hrest)
  | kept head _ ih => exact (hkept head).append (ih hrest)

end RecallsAll

/-- Components that are unmounted lose their names, and all others keep theirs. -/
theorem noted_unmountAll {t : Array Instance} {cs : List InstanceId} {W : List Naming}
    (hbound : ∀ id ∈ cs, id.index < t.size) (hlive : ∀ id ∈ cs, ¬ Vacant t id) : Noted t W (unmountAll t cs) [] := by
  intro id name
  by_cases hid : id ∈ cs
  · exact .inl ⟨by rw [size_unmountAll]; exact hbound id hid, fun _ => hlive id hid, vacant_unmountAll _ hid⟩
  · exact .inr (.inr ⟨named_unmountAll hid, by simp⟩)

theorem teardown_recalls {parent : NodeId} {r : Rendered} (h : teardown b parent r σ = .ok () σ') :
    RecallsAll b owner p σ [r] σ' [] := by
  refine ⟨teardown_renewal (Watch.blind b) h, fun hpaired => ⟨(teardown_renewal (Watch.blind b) h hpaired).2, ?_⟩⟩
  intro cs W _ hholds _ _
  rw [slotsOf_cons, slotsOf_nil, List.append_nil] at hholds
  obtain ⟨σ₁, w₁, w₂, -, -, -, rfl⟩ := teardown_ok (hpaired r List.mem_cons_self) hholds h
  exact ⟨[], .nil, noted_unmountAll hholds.index_lt hholds.not_vacant⟩

theorem teardownSlot_recalls {parent : NodeId} {old lexem : Lexem} {slot : Slot}
    (h : teardownSlot b parent lexem slot σ = .ok () σ') : Recalls b owner p σ [old] [slot] σ' [] [] := by
  refine ⟨teardownSlot_turn (Watch.blind b) h, ?_⟩
  intro cs W _ hholds _ _
  obtain ⟨σ₁, w₁, w₂, -, -, -, rfl⟩ := teardownSlot_ok hholds h
  exact ⟨[], .nil, noted_unmountAll hholds.index_lt hholds.not_vacant⟩

theorem teardowns_recalls {parent : NodeId} {rs : List Rendered} (h : Sweep (teardown b parent) rs σ σ') :
    RecallsAll b owner p σ rs σ' [] := by
  induction h with
  | nil => exact .refl
  | cons head _ ih => exact (teardown_recalls head).append ih

variable {e : Engine} {c : Cursor} {lexem old : Lexem} {slot slot' : Slot}

/-- A word that the engine of the output takes for something else names nothing. -/
theorem naming_nil (h : e.name? lexem = none) : lexem.naming (c.owner e) p = [] := by
  refine Lexem.naming_of_none fun o ho => ?_
  obtain ⟨id, -, rfl⟩ := Option.map_eq_some_iff.mp ho
  exact h

/-- A word that names its node enters the name. -/
theorem nameNode_noted {W W' : List Naming} (hspace : e.isTarget lexem.space = true)
    (hword : e.instruction? lexem = some .ref) (hname : Engine.nameNode c lexem σ = .ok () σ')
    (hbound : ∀ o ∈ c.owner e, o.1.index < σ.instances.size)
    (hsub : ∀ naming ∈ W', naming ∈ W ∨ naming ∈ lexem.naming (c.owner e) c.parent)
    (hown : ∀ naming ∈ lexem.naming (c.owner e) c.parent, naming ∈ W') : Noted σ.instances W σ'.instances W' := by
  unfold Engine.nameNode at hname
  cases hcomponent : c.component with
  | none =>
      rw [hcomponent] at hname
      obtain ⟨-, rfl⟩ := pure_eq_ok.mp hname
      refine .same (fun _ _ => rfl) fun naming hnaming => (hsub naming hnaming).resolve_right fun hmem => ?_
      rw [Cursor.owner, hcomponent] at hmem
      simp [Lexem.naming] at hmem
  | some id =>
      simp only [hcomponent, bind_eq_ok, ofExcept_eq_ok, editInstance_eq_ok] at hname
      obtain ⟨name, _, ⟨hkey, rfl⟩, rfl⟩ := hname
      have howner : c.owner e = some (id, e) := by rw [Cursor.owner, hcomponent]; rfl
      have hnaming : lexem.naming (c.owner e) c.parent = [⟨id, name, c.parent⟩] := by
        have hname : e.name? lexem = some name := by rw [Engine.name?, if_pos ⟨hspace, hword⟩, hkey]; rfl
        simp [howner, Lexem.naming, hname]
      rw [hnaming] at hsub hown
      intro other key
      by_cases hentry : other = id ∧ key = name
      · obtain ⟨rfl, rfl⟩ := hentry
        have hlt := hbound (other, e) howner
        refine .inr (.inl ⟨c.parent, ?_, hown _ List.mem_cons_self⟩)
        rw [named, Stage.onInstance_instances, Array.getElem?_modify, if_pos rfl, Array.getElem?_eq_getElem hlt,
          Option.map_some, Option.bind_some, Entries.get?_put, if_pos rfl]
      refine .inr (.inr ⟨?_, fun node hnode => (hsub _ hnode).resolve_right fun hmem => ?_⟩)
      · rw [named, named, Stage.onInstance_instances, Array.getElem?_modify]
        split
        next heq =>
          obtain rfl : other = id := by cases other; cases id; exact congrArg _ heq.symm
          have hkeyNe : key ≠ name := fun heq => hentry ⟨rfl, heq⟩
          cases σ.instances[other.index]? with
          | none => rfl
          | some i => rw [Option.map_some, Option.bind_some, Option.bind_some, Entries.get?_put, if_neg hkeyNe]
        next => rfl
      · simp only [List.mem_singleton, Naming.mk.injEq] at hmem
        exact hentry ⟨hmem.1, hmem.2.1⟩

section Steps

variable {render : Cursor → Phrase → Pass ω Rendered} {diff : Engine → Cursor → Phrase → Rendered → Pass ω Rendered}

variable (b) in
/-- Rendering as deep as one likes notes the names of its output. -/
def RenderRecalls (e : Engine) (render : Cursor → Phrase → Pass ω Rendered) : Prop :=
  ∀ ⦃c phrase σ r σ'⦄, render c phrase σ = .ok r σ' → RecallsAll b (c.owner e) c.parent σ [] σ' [r]

variable (b) in
/-- A diff as deep as one likes notes the names of its output. -/
def DiffRecalls (diff : Engine → Cursor → Phrase → Rendered → Pass ω Rendered) : Prop :=
  ∀ ⦃e c phrase previous σ r σ'⦄, diff e c phrase previous σ = .ok r σ' →
    RecallsAll b (c.owner e) c.parent σ [previous] σ' [r]

/-- A component that is mounted has the names of its output, and no one else has them. -/
theorem mount_recalls (hrender : RenderRecalls b e render) (hrenders : Renders (Watch.blind b) render)
    (hlexem : lexem.naming owner p = []) {factory : Factory} {props : Arg} {s : Sentence} {r : Rendered}
    {w₁ w₂ w₃ w₄ : ω} {f : Host → Host} {witness : NodeId}
    (hcreate : b.create factory ⟨σ.instances.size⟩ props σ.world = .ok () w₁)
    (hwill : b.lifecycle ⟨σ.instances.size⟩ .willMount w₁ = .ok () w₂)
    (hview : b.view ⟨σ.instances.size⟩ w₂ = .ok s w₃)
    (hinner : render { c with component := some ⟨σ.instances.size⟩ } (.new s)
      ⟨σ.host, σ.instances.push ⟨factory, e, c.parent, none, none, []⟩, w₃⟩ = .ok r σ')
    (hdid : b.lifecycle ⟨σ.instances.size⟩ .didMount σ'.world = .ok () w₄) :
    Recalls b owner p σ [] [] (((σ'.onHost f).onInstance ⟨σ.instances.size⟩
      fun i => { i with developed := some r, witness := some witness }).inWorld w₄) [lexem]
      [.component ⟨σ.instances.size⟩] := by
  refine ⟨mount_turn (Watch.blind b) hrenders hcreate hwill hview hinner hdid, ?_⟩
  intro cs W _ hholds _ hnamings
  cases hholds
  cases hnamings
  have hall := hrender hinner
  obtain ⟨-, hturn⟩ := hall.renewal (by simp)
  have hrecalls := hall.recalls (by simp)
  simp only [lexemsOf_cons, slotsOf_cons, lexemsOf_nil, slotsOf_nil, List.append_nil, Cursor.owner,
    Option.map_some] at hturn hrecalls
  generalize hid : (⟨σ.instances.size⟩ : InstanceId) = id at hrecalls ⊢
  have hindex : id.index = σ.instances.size := by rw [← hid]
  obtain ⟨inner, hinner, hexchange⟩ := hturn [] .nil (mounted_blind List.nodup_nil)
  have hnotin : id ∉ inner := fun hchild => by
    rcases hexchange.source id hchild with hold | hlate
    · simp at hold
    · rw [Array.size_push] at hlate
      omega
  obtain ⟨V, hV, hnoted⟩ := hrecalls.noted (by simp [hindex]) .nil List.nodup_nil .nil
  obtain ⟨i, hpresent, hcore⟩ := (hexchange.agree id (by rw [Array.size_push]; omega) (by simp)).some
    (show _ = some _ by rw [hindex, Array.getElem?_push_size])
  have hhere : (σ'.instances.modify id.index fun i =>
      { i with developed := some r, witness := some witness })[id.index]? =
        some { i with developed := some r, witness := some witness } := by
    rw [Array.getElem?_modify, if_pos rfl, hpresent, Option.map_some]
  have hagree : ∀ other ≠ id, Agree σ'.instances (σ'.instances.modify id.index fun i =>
      { i with developed := some r, witness := some witness }) other := fun other => agree_modify _ _
  have houtput := hV.congr hinner fun child hchild => hagree child fun heq => hnotin (heq ▸ hchild)
  have hengine : i.engine = e := Census.engine_of_core hcore
  have hparent : i.parent = c.parent := Placed.parent_of_core hcore
  rw [← hengine, ← hparent] at houtput
  refine ⟨_, .component hhere rfl houtput .nil, fun other name => ?_⟩
  simp only [hlexem, List.append_nil, List.not_mem_nil, imp_false, Stage.inWorld_instances, Stage.onInstance_instances,
    Stage.onHost_instances]
  have hpush : ∀ other name, named (σ.instances.push ⟨factory, e, c.parent, none, none, []⟩) other name =
      named σ.instances other name := fun _ _ => named_push rfl
  have hset : named (σ'.instances.modify id.index fun i => { i with developed := some r, witness := some witness })
      other name = named σ'.instances other name := by
    refine named_modify _ (fun i => ?_) _
    rfl
  rw [hset]
  rcases hnoted other name with ⟨hmade, hlive, hvacant⟩ | hnew | ⟨hsame, hold⟩
  · -- the component itself has no output while it is rendered, so it is not among those that have lost theirs
    have hne : other ≠ id := by
      rintro rfl
      refine hlive (by rw [Array.size_push]; omega) fun j hj => ?_
      rw [hindex, Array.getElem?_push_size, Option.some.injEq] at hj
      rw [← hj]
    refine .inl ⟨by rwa [Array.size_modify], fun hlt hbefore => ?_, (hagree other hne).vacant hvacant⟩
    refine hlive (by rw [Array.size_push]; omega) ?_
    have hsame : Agree σ.instances (σ.instances.push ⟨factory, e, c.parent, none, none, []⟩) other := by
      rw [Agree, Array.getElem?_push_lt hlt, Array.getElem?_eq_getElem hlt]
    exact hsame.vacant hbefore
  · exact .inr (.inl hnew)
  · exact .inr (.inr ⟨hsame.trans (hpush other name), fun node hnode => by simpa using hold node hnode⟩)

/-- A component that is rendered again notes the names of its output. -/
theorem update_recalls (hdiff : DiffRecalls b diff) (hdiffs : Diffs (Watch.blind b) diff) {id : InstanceId}
    (hlexem : lexem.naming owner p = []) (hupdate : Engine.UpdateStep b diff id σ σ') :
    Recalls b owner p σ [old] [.component id] σ' [lexem] [.component id] := by
  have hturn : Turn (blind b) σ [.component id] σ' [.component id] := fun cs hholds hmounted =>
    update_exchange (Watch.blind b) hdiffs hupdate hholds hmounted.nodup (fun _ _ _ => trivial)
      (fun _ _ => trivial) trivial .view
  refine ⟨hturn, ?_⟩
  intro cs W _ hholds hnodup hnamings
  obtain ⟨i, previous, inner, rfl, hpresent, hdeveloped, hpaired, hlater, hinner⟩ := hholds.of_component
  obtain ⟨V, rfl, hV⟩ := hnamings.of_component hpresent hdeveloped
  cases hupdate with
  | absent habsent => simp [habsent] at hpresent
  | @viewed i₁ previous₁ next s w σ' hpresent₁ hdeveloped₁ hview hrun =>
  rw [hpresent] at hpresent₁
  cases hpresent₁
  rw [hdeveloped] at hdeveloped₁
  cases hdeveloped₁
  have hnotin : id ∉ inner := fun hchild => absurd (hlater id hchild) (Nat.lt_irrefl _)
  have hlt := (Array.getElem?_eq_some_iff.mp hpresent).1
  have hinnerNodup : inner.Nodup := hnodup.sublist (List.sublist_append_left _ _)
  have hall := hdiff hrun
  obtain ⟨-, hturn'⟩ := hall.renewal (by simpa using hpaired)
  have hrecalls := hall.recalls (by simpa using hpaired)
  simp only [lexemsOf_cons, slotsOf_cons, lexemsOf_nil, slotsOf_nil, List.append_nil, Cursor.owner,
    Option.map_some] at hturn' hrecalls
  have hagree₀ : ∀ other ≠ id, Agree σ.instances (σ.instances.modify id.index fun i =>
      { i with developed := none }) other := fun other => agree_modify _ _
  have hagree : ∀ child ∈ inner, Agree σ.instances (σ.instances.modify id.index fun i =>
      { i with developed := none }) child := fun child hchild => hagree₀ child fun heq => hnotin (heq ▸ hchild)
  have hinner₁ := hinner.congr hagree
  obtain ⟨inner', hinner', hexchange⟩ := hturn' inner hinner₁ (mounted_blind hinnerNodup)
  have hnotin' : id ∉ inner' := fun hchild => by
    rcases hexchange.source id hchild with hold | hlate
    · exact hnotin hold
    · rw [Stage.inWorld_instances, Stage.onInstance_instances, Array.size_modify] at hlate
      omega
  have hagree' : ∀ other ≠ id, Agree σ'.instances (σ'.instances.modify id.index fun i =>
      { i with developed := some next }) other := fun other => agree_modify _ _
  obtain ⟨i', hpresent', hcore⟩ := (hexchange.agree id (by simpa using hlt) hnotin).some
    (show (σ.instances.modify id.index _)[id.index]? = some _ by
      rw [Array.getElem?_modify, if_pos rfl, hpresent, Option.map_some])
  have hhere : (σ'.instances.modify id.index fun i => { i with developed := some next })[id.index]? =
      some { i' with developed := some next } := by
    rw [Array.getElem?_modify, if_pos rfl, hpresent', Option.map_some]
  obtain ⟨V', hV', hnoted⟩ := hrecalls.noted (by simpa using hlt) hinner₁ hinnerNodup (hV.congr hinner hagree)
  have houtput := hV'.congr hinner' fun child hchild => hagree' child fun heq => hnotin' (heq ▸ hchild)
  have hengine : i'.engine = i.engine := (Census.engine_of_core hcore).trans rfl
  have hparent : i'.parent = i.parent := (Placed.parent_of_core hcore).trans rfl
  rw [← hengine, ← hparent] at houtput
  refine ⟨_, .component hhere rfl houtput .nil, fun other name => ?_⟩
  simp only [hlexem, List.append_nil, Stage.onInstance_instances]
  have hset : named (σ'.instances.modify id.index fun i => { i with developed := some next }) other name =
      named σ'.instances other name := by
    refine named_modify _ (fun i => ?_) _
    rfl
  have hopened : named (σ.instances.modify id.index fun i => { i with developed := none }) other name =
      named σ.instances other name := by
    refine named_modify _ (fun i => ?_) _
    rfl
  rw [hset]
  rcases hnoted other name with ⟨hmade, hlive, hvacant⟩ | hnew | ⟨hsame, hold⟩
  · simp only [Stage.inWorld_instances, Stage.onInstance_instances, Array.size_modify] at hlive
    have hne : other ≠ id := by
      rintro rfl
      refine hlive hlt fun j hj => ?_
      rw [Array.getElem?_modify, if_pos rfl, hpresent, Option.map_some, Option.some.injEq] at hj
      rw [← hj]
    exact .inl ⟨by rwa [Array.size_modify], fun hlt' hbefore => hlive hlt' ((hagree₀ other hne).vacant hbefore),
      (hagree' other hne).vacant hvacant⟩
  · exact .inr (.inl hnew)
  · refine .inr (.inr ⟨hsame.trans hopened, fun node hnode => ?_⟩)
    exact List.mem_append_left _ (hold node hnode)

/-- Rendering a lexem notes the names of its slot. -/
theorem RenderStep.recalls (hrender : RenderRecalls b e render) (hrenders : Renders (Watch.blind b) render)
    (h : Engine.RenderStep b render e c lexem σ slot σ') :
    Recalls b (c.owner e) c.parent σ [] [] σ' [lexem] [slot] := by
  cases h with
  | skipped hspace => exact .born (by simp) (naming_nil (Engine.name?_of_foreign hspace)) .refl
  | compound _ hword _ hinner =>
      exact .born (by simp) (naming_nil (Engine.name?_of_none hword)) ((hrender hinner).before rfl)
  | «attribute» _ hword hwrites =>
      refine .born (by simp) (naming_nil (Engine.name?_of_instruction hword ?_)) (.after .refl rfl)
      rintro rfl
      cases hwrites
  | text _ hword | listener _ hword | raw _ hword =>
      exact .born (by simp) (naming_nil (Engine.name?_of_instruction hword (by simp))) (.after .refl rfl)
  | element _ hword _ _ hinner =>
      exact .born (by simp) (naming_nil (Engine.name?_of_instruction hword (by simp)))
        (.before (.chain (fun h => hrender (c := c.inside σ.host.next) h) hinner) rfl)
  | branch _ hword hchoice _ hinner =>
      refine .born (by simp) (naming_nil (Engine.name?_of_instruction hword ?_))
        (.before (.after (.chain (fun h => hrender h) hinner) rfl) rfl)
      rintro rfl
      cases hchoice
  | each _ hword _ hinner =>
      exact .born (by simp) (naming_nil (Engine.name?_of_instruction hword (by simp)))
        (.before (.after (.chain (fun h => hrender h) hinner) rfl) rfl)
  | hook _ hword | callback _ hword =>
      exact .born (by simp) (naming_nil (Engine.name?_of_instruction hword (by simp))) (.after .refl rfl)
  | name hspace hword hname =>
      refine ⟨(nameNode_turn (Watch.blind b) hname).trans (.born (by simp) .refl), ?_⟩
      intro cs W hbound hholds _ hnamings
      cases hholds
      cases hnamings
      refine ⟨_, .part (by simp) .nil .nil, nameNode_noted hspace hword hname hbound (fun naming hnaming => ?_)
        fun naming hnaming => ?_⟩
      · exact .inr (by simpa using hnaming)
      · simpa using hnaming
  | component _ hword _ hcreate hwill hview hinner hdid =>
      exact mount_recalls hrender hrenders (naming_nil (Engine.name?_of_instruction hword (by simp))) hcreate hwill hview
        hinner hdid

/-- A word that keeps its slot without being looked at names nothing. -/
theorem Unchanged.name? (h : Engine.Unchanged e lexem old σ slot) : e.name? lexem = none := by
  cases h with
  | foreign hspace => exact Engine.name?_of_foreign hspace
  | bare hargs => exact Engine.name?_of_bare hargs
  | compound hword => exact Engine.name?_of_none hword
  | text hword | switch hword | raw hword | callback hword | component hword =>
      exact Engine.name?_of_instruction hword (by simp)

/-- Diffing a lexem notes the names of its slot. -/
theorem DiffStep.recalls (hrender : RenderRecalls b e render) (hrenders : Renders (Watch.blind b) render)
    (hdiff : DiffRecalls b diff) (hdiffs : Diffs (Watch.blind b) diff)
    (h : Engine.DiffStep b render diff e c lexem old σ slot slot' σ') :
    Recalls b (c.owner e) c.parent σ [old] [slot] σ' [lexem] [slot'] := by
  have hplain : ∀ {i : Instruction}, e.instruction? lexem = some i → i ≠ .ref →
      lexem.naming (c.owner e) c.parent = [] := fun hword hi => naming_nil (Engine.name?_of_instruction hword hi)
  cases h with
  | kept hkept => exact .stay rfl (naming_nil (Unchanged.name? hkept))
  | redeveloped _ hword _ _ hrun =>
      exact .part (by simp) (by simp) rfl (naming_nil (Engine.name?_of_none hword)) ((hdiff hrun).before rfl)
  | rewritten _ _ hword hrewrite =>
      refine .stay rfl (hplain hword ?_)
      rintro rfl
      cases hrewrite
  | text _ hword | rebound _ hword | hook _ hword | rehooked _ hword | callback _ hword =>
      exact .stay rfl (hplain hword (by simp))
  | moved _ hword => exact .part (by simp) (by simp) rfl (hplain hword (by simp)) (.after .refl rfl)
  | raw _ hword => exact .part (by simp) (by simp) rfl (hplain hword (by simp)) (.after .refl rfl)
  | @retagged node kids tag oldTag slot' σ₁ σ' hword _ _ _ hstep hremove =>
      have hnew : Recalls b (c.owner e) c.parent σ [] [] σ₁ [lexem] [slot'] :=
        RenderStep.recalls (c := c.before node) hrender hrenders hstep
      exact hnew.append rfl (teardownSlot_recalls hremove)
  | @tag node _ _ _ _ _ _ _ hword _ _ hkids hrest =>
      refine .part (by simp) (by simp) rfl (hplain hword (by simp))
        (.matching ?_ ?_ hkids (teardowns_recalls hrest))
      · rintro _ _ _ _ ⟨phrase, -, hrun⟩
        exact hrender (c := c.inside node) hrun
      · intro _ _ _ _ _ hchild
        cases hchild with
        | same => exact .refl
        | diffed _ hrun => exact hdiff (c := c.inside node) hrun
  | @branch _ _ _ _ _ witness _ _ _ _ hword hchoice _ _ hrun =>
      refine .part (by simp) (by simp) rfl (hplain hword ?_) ((hdiff (c := c.before witness) hrun).before rfl)
      rintro rfl
      cases hchoice
  | @flipped _ _ _ _ _ witness _ _ _ _ _ hword hchoice _ _ hremove hinner =>
      refine .part (by simp) (by simp) rfl (hplain hword ?_) ?_
      · rintro rfl
        cases hchoice
      have hnew := RecallsAll.chain (fun h => hrender (c := c.before witness) h) hinner
      have hgone : RecallsAll b (c.owner e) c.parent _ _ _ [] := teardowns_recalls hremove
      have hwhole := hgone.append hnew
      rw [List.append_nil, List.nil_append] at hwhole
      exact hwhole.before rfl
  | @each _ _ witness _ _ _ _ _ _ hword _ hitems hrest =>
      refine .part (by simp) (by simp) rfl (hplain hword (by simp)) (.before (.matching ?_ ?_ hitems
        (teardowns_recalls hrest)) rfl)
      · exact fun hrun => hrender (c := c.before witness) hrun
      · exact fun hrun => hdiff (c := c.before witness) hrun
  | name hspace hword hname =>
      refine ⟨nameNode_turn (Watch.blind b) hname, ?_⟩
      intro cs W hbound hholds _ hnamings
      obtain ⟨t, rfl, -, hagree⟩ := nameNode_ok hname
      have hnow := hnamings.congr hholds fun id _ => hagree id
      cases hnow with
      | part hslot hinner houter =>
          cases houter
          refine ⟨_, .part hslot hinner .nil, nameNode_noted hspace hword hname hbound (fun naming hnaming => ?_)
            fun naming hnaming => by simp [hnaming]⟩
          simp only [List.append_nil, List.mem_append] at hnaming ⊢
          exact hnaming.imp_left .inl
      | component hpresent hdeveloped hinner houter =>
          cases houter
          refine ⟨_, .component hpresent hdeveloped hinner .nil, nameNode_noted hspace hword hname hbound
            (fun naming hnaming => ?_) fun naming hnaming => by simp [hnaming]⟩
          simp only [List.append_nil, List.mem_append] at hnaming ⊢
          exact hnaming.imp_left .inl
  | component _ hword _ _ _ _ hupdate =>
      exact (update_recalls hdiff hdiffs (hplain hword (by simp)) hupdate).before rfl

/-- The slots of a sentence that is rendered, lexem by lexem. -/
theorem renderChain_recalls (hrender : RenderRecalls b e render) (hrenders : Renders (Watch.blind b) render)
    {lexems : List Lexem} {slots : List Slot} (h : Chain (Engine.renderLexem b render e c) lexems σ slots σ') :
    Recalls b (c.owner e) c.parent σ [] [] σ' lexems slots := by
  induction h with
  | nil => exact .refl
  | cons head _ ih => exact (RenderStep.recalls hrender hrenders (Engine.renderLexem_step head)).append rfl ih

/-- The slots of a sentence that is diffed, lexem by lexem. -/
theorem DiffSteps.recalls (hrender : RenderRecalls b e render) (hrenders : Renders (Watch.blind b) render)
    (hdiff : DiffRecalls b diff) (hdiffs : Diffs (Watch.blind b) diff) {lexems olds : List Lexem}
    {slots slots' : List Slot} (h : Engine.DiffSteps b render diff e c lexems olds slots σ slots' σ') :
    Recalls b (c.owner e) c.parent σ olds slots σ' lexems slots' := by
  induction h with
  | nil => exact .refl
  | cons _ head _ ih => exact (DiffStep.recalls hrender hrenders hdiff hdiffs head).append rfl ih

end Steps

theorem renderWithin_recalls {depth : Nat} : RenderRecalls b e (Engine.renderWithin b depth e) := by
  induction depth with
  | zero =>
      intro c phrase σ r σ' h
      cases h
  | succ depth ih =>
      intro c phrase σ r σ' h
      refine ⟨renderWithin_renewal (Watch.blind b) h, fun _ => ?_⟩
      obtain ⟨slots, rfl, hchain⟩ := Engine.renderPhrase_ok h
      simpa [lexemsOf, slotsOf] using renderChain_recalls ih (renderWithin_renewal (Watch.blind b)) hchain

theorem diffWithin_recalls {depth : Nat} : DiffRecalls b (Engine.diffWithin b depth) := by
  induction depth with
  | zero =>
      intro e c phrase previous σ r σ' h
      cases h
  | succ depth ih =>
      intro e c phrase previous σ r σ' h
      refine ⟨diffWithin_renewal (Watch.blind b) h, fun hpaired => ?_⟩
      rcases Engine.diffPhrase_ok (hpaired previous List.mem_cons_self) h with ⟨-, rfl, rfl⟩ | ⟨-, slots, rfl, hsteps⟩
      · exact .refl
      · simpa [lexemsOf, slotsOf] using DiffSteps.recalls renderWithin_recalls (renderWithin_renewal (Watch.blind b)) ih
          (diffWithin_renewal (Watch.blind b)) hsteps

end Parlance
