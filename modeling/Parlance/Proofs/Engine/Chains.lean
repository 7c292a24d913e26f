import Parlance.Proofs.Engine.Retention

/-! What every hook is told in the course of a run of passes. The turns that a slot gets in pass after pass make a
chain on one node: the hook is told of its node, then what has changed since the call before or that another hook takes
over, and at last, once and for all, that it is removed. A removal tells the hooks before anything is taken off the
host, and none of them afterwards. -/

namespace Parlance

open Pass

/-- The turns of one slot on one node, with the hook that was told last and its arguments, unless it is removed. -/
inductive HookChain (n : NodeId) : List (List HookCall) → Option (Identity × List Arg) → Prop
  | rendered (hook : Identity) (args : List Arg) : HookChain n [[.render hook n args]] (some (hook, args))
  | diffed {turns : List (List HookCall)} {hook : Identity} {old : List Arg} (h : HookChain n turns (some (hook, old)))
      (args : List Arg) : HookChain n (turns ++ [[.diff hook n args old]]) (some (hook, args))
  | replaced {turns : List (List HookCall)} {hook former : Identity} {old : List Arg}
      (h : HookChain n turns (some (former, old))) (hne : hook ≠ former) (args : List Arg) :
      HookChain n (turns ++ [[.remove former n old, .render hook n args]]) (some (hook, args))
  | removed {turns : List (List HookCall)} {hook : Identity} {args : List Arg}
      (h : HookChain n turns (some (hook, args))) : HookChain n (turns ++ [[.remove hook n args]]) none

/-- The turns that are none but in name, as the slot is not reached, are left out. -/
def spoken (turns : List (List HookCall)) : List (List HookCall) := turns.filter (!·.isEmpty)

/-- What one slot is told, pass by pass. -/
structure HookRow where
  node : NodeId
  turns : List (List HookCall)
  last : Option (Identity × List Arg)
  chain : HookChain node (spoken turns) last

namespace HookRow

/-- What is told to a row of slots in a pass. -/
def column (rows : List HookRow) (i : Nat) : List HookCall := rows.flatMap fun row => row.turns.getD i []

/-- The hook that stands at the end of a row, with the node and the arguments that it was told of last. -/
def standing (row : HookRow) : Option (NodeId × Except PassError Identity × List Arg) :=
  row.last.map fun told => (row.node, .ok told.1, told.2)

end HookRow

/-- What a hook has to know of a word. -/
def hookOf (hook : NodeId × Lexem) : NodeId × Except PassError Identity × List Arg :=
  (hook.1, hook.2.hookArg, hook.2.hookArgs)

section Rows

variable {turns : List (List HookCall)} {own calls : List HookCall} {hooks hooks' : List (NodeId × Lexem)}
variable {rows : List HookRow} {k : Nat}

theorem spoken_idle : spoken (turns ++ [[]]) = spoken turns := by simp [spoken]

theorem spoken_append (hown : own ≠ []) : spoken (turns ++ [own]) = spoken turns ++ [own] := by
  cases own with
  | nil => exact absurd rfl hown
  | cons => simp [spoken]

theorem spoken_awaited : spoken (List.replicate k [] ++ [own]) = spoken [own] := by simp [spoken]

namespace HookRow

theorem column_append (rows rows' : List HookRow) (i : Nat) :
    column (rows ++ rows') i = column rows i ++ column rows' i := List.flatMap_append

/-- A slot is not reached. -/
def idle (row : HookRow) : HookRow :=
  ⟨row.node, row.turns ++ [[]], row.last, by rw [spoken_idle]; exact row.chain⟩

/-- What stands at the end is still to be told, if it stands. -/
theorem standing_eq_some {row : HookRow} {n : NodeId} {lexem : Lexem} (h : row.standing = some (hookOf (n, lexem))) :
    row.node = n ∧ ∃ hook, lexem.hookArg = .ok hook ∧ row.last = some (hook, lexem.hookArgs) := by
  obtain ⟨⟨hook, args⟩, hlast, heq⟩ := Option.map_eq_some_iff.mp h
  obtain ⟨hnode, hhook, hargs⟩ : row.node = n ∧ .ok hook = lexem.hookArg ∧ args = lexem.hookArgs := by
    simpa [hookOf] using heq
  exact ⟨hnode, hook, hhook.symm, hargs ▸ hlast⟩

/-- A turn of the hook at the end of a row makes the row longer. -/
theorem next {row : HookRow} {hook : NodeId × Lexem} {after : Option (NodeId × Lexem)}
    (hstanding : row.standing = some (hookOf hook)) (hturn : HookTurn (some hook) own after) :
    ∃ row' : HookRow, row'.turns = row.turns ++ [own] ∧ row'.standing = after.map hookOf := by
  obtain ⟨n, word⟩ := hook
  obtain ⟨rfl, told, htold, hlast⟩ := standing_eq_some hstanding
  have hchain := row.chain
  rw [hlast] at hchain
  cases hturn with
  | kept => exact ⟨row.idle, rfl, hstanding⟩
  | @diffed _ lexem _ _ hhook hold =>
      cases hold.symm.trans htold
      refine ⟨⟨row.node, row.turns ++ [_], some (told, lexem.hookArgs), ?_⟩, rfl, by simp [standing, hookOf, hhook]⟩
      rw [spoken_append (by simp)]
      exact .diffed hchain _
  | @replaced _ lexem _ hook _ hhook hold hne =>
      cases hold.symm.trans htold
      refine ⟨⟨row.node, row.turns ++ [_], some (hook, lexem.hookArgs), ?_⟩, rfl, by simp [standing, hookOf, hhook]⟩
      rw [spoken_append (by simp)]
      exact .replaced hchain hne _
  | removed hhook =>
      cases hhook.symm.trans htold
      refine ⟨⟨row.node, row.turns ++ [_], none, ?_⟩, rfl, rfl⟩
      rw [spoken_append (by simp)]
      exact .removed hchain

/-- A new row begins when a hook is told of its node. -/
theorem new {after : Option (NodeId × Lexem)} (hturn : HookTurn none own after) (k : Nat) :
    ∃ row : HookRow, row.turns = List.replicate k [] ++ [own] ∧ row.standing = after.map hookOf := by
  cases hturn with
  | @rendered n lexem hook hhook =>
      refine ⟨⟨n, List.replicate k [] ++ [_], some (hook, lexem.hookArgs), ?_⟩, rfl, by simp [standing, hookOf, hhook]⟩
      rw [spoken_awaited]
      exact .rendered hook _

end HookRow

/-- Rows after another pass, in which they have been told something. -/
structure Lengthens (k : Nat) (rows : List HookRow) (calls : List HookCall) (rows' : List HookRow) : Prop where
  length : ∀ row ∈ rows', row.turns.length = k + 1
  before : ∀ i < k, HookRow.column rows' i = HookRow.column rows i
  now : HookRow.column rows' k = calls

namespace Lengthens

variable {rows' rows₂ rows₂' : List HookRow} {calls₂ : List HookCall} {row row' : HookRow}

theorem append (h : Lengthens k rows calls rows') (h₂ : Lengthens k rows₂ calls₂ rows₂') :
    Lengthens k (rows ++ rows₂) (calls ++ calls₂) (rows' ++ rows₂') where
  length row hrow := (List.mem_append.mp hrow).elim (h.length row) (h₂.length row)
  before i hi := by rw [HookRow.column_append, HookRow.column_append, h.before i hi, h₂.before i hi]
  now := by rw [HookRow.column_append, h.now, h₂.now]

/-- One row gets its turn. -/
theorem one (hlength : row.turns.length = k) (hturns : row'.turns = row.turns ++ [own]) :
    Lengthens k [row] own [row'] where
  length := by simp [hturns, hlength]
  before i hi := by simp [HookRow.column, hturns, List.getElem?_append_left, hlength, hi]
  now := by simp [HookRow.column, hturns, ← hlength]

/-- A row begins. -/
theorem born (hturns : row'.turns = List.replicate k [] ++ [own]) : Lengthens k [] own [row'] where
  length := by simp [hturns]
  before i hi := by simp [HookRow.column, hturns, List.getElem?_append_left, hi]
  now := by simp [HookRow.column, hturns]

theorem idle (hlength : ∀ row ∈ rows, row.turns.length = k) : Lengthens k rows [] (rows.map HookRow.idle) := by
  induction rows with
  | nil => exact ⟨by simp, fun _ _ => rfl, rfl⟩
  | cons row rows ih =>
      have hrow : Lengthens k [row] [] [row.idle] := one (hlength row List.mem_cons_self) rfl
      exact hrow.append (ih fun row hrow => hlength row (List.mem_cons_of_mem _ hrow))

end Lengthens

theorem filterMap_idle (rows : List HookRow) :
    (rows.map HookRow.idle).filterMap HookRow.standing = rows.filterMap HookRow.standing := by
  rw [List.filterMap_map]
  rfl

/-- The turns of one pass make rows longer, each by at most one turn. -/
theorem HookTurns.lengthens (h : HookTurns hooks calls hooks') (hlength : ∀ row ∈ rows, row.turns.length = k)
    (hstanding : rows.filterMap HookRow.standing = hooks.map hookOf) :
    ∃ rows', Lengthens k rows calls rows' ∧ rows'.filterMap HookRow.standing = hooks'.map hookOf := by
  induction h generalizing rows with
  | nil => exact ⟨_, .idle hlength, by rw [filterMap_idle, hstanding]⟩
  | @cons before after hooks hooks' own calls head _ ih =>
      cases before with
      | none =>
          obtain ⟨rows', hrows', hrest⟩ := ih hlength hstanding
          obtain ⟨row, hturns, hrow⟩ := HookRow.new head k
          refine ⟨[row] ++ rows', (Lengthens.born hturns).append hrows', ?_⟩
          rw [List.filterMap_append, List.map_append, hrest]
          cases after <;> simp [hrow]
      | some hook =>
          obtain ⟨gone, row, rest, rfl, hgone, hrow, hafter⟩ := List.filterMap_eq_cons_iff.mp hstanding
          simp only [List.mem_append, List.mem_cons] at hlength
          obtain ⟨rows', hrows', hrest⟩ := ih (fun row hrow => hlength row (.inr (.inr hrow))) hafter
          obtain ⟨row', hturns, hrow'⟩ := HookRow.next hrow head
          refine ⟨gone.map HookRow.idle ++ ([row'] ++ rows'), ?_, ?_⟩
          · have hone := Lengthens.one (hlength row (.inr (.inl rfl))) hturns
            exact (Lengthens.idle fun row hrow => hlength row (.inl hrow)).append (hone.append hrows')
          · rw [List.filterMap_append, List.filterMap_append, List.map_append, hrest, filterMap_idle,
              List.filterMap_eq_nil_iff.mpr hgone]
            cases after <;> simp [hrow']

end Rows

variable {ω : Type} {ρ : Regime} {b : Behaviour ω}

section Passages

variable (ρ b)

/-- A pass on outputs that are retained. -/
inductive Passage (os : Outputs) (σ : Stage ω) : Outputs → Stage ω → Prop
  | render {e : Engine} {p : NodeId} {s : Sentence} {r : Rendered} {σ' : Stage ω} (hadmits : ρ.Admits e)
      (hpass : e.render b p s σ = .ok r σ') : Passage os σ (os ++ [(p, r)]) σ'
  | diff {e : Engine} {before after : Outputs} {p : NodeId} {s : Sentence} {r r' : Rendered} {σ' : Stage ω}
      (hos : os = before ++ (p, r) :: after) (hadmits : ρ.Admits e) (hpass : e.diff b p s r σ = .ok r' σ')
      (hfollows : ρ.Follows σ.instances r.sentence.lexems r.slots σ'.instances r'.sentence.lexems r'.slots) :
      Passage os σ (before ++ (p, r') :: after) σ'
  | update {id : InstanceId} {σ' : Stage ω} (hid : Reachable σ.instances os.slots id)
      (hpass : Engine.updateComponent b id σ = .ok () σ')
      (hfollows : ∀ i r i' r', σ.instances[id.index]? = some i → i.developed = some r →
        σ'.instances[id.index]? = some i' → i'.developed = some r' →
        ρ.Follows σ.instances r.sentence.lexems r.slots σ'.instances r'.sentence.lexems r'.slots) :
      Passage os σ os σ'
  | remove {before after : Outputs} {p : NodeId} {r : Rendered} {σ' : Stage ω} (hos : os = before ++ (p, r) :: after)
      (hpass : Engine.remove b p r σ = .ok () σ') : Passage os σ (before ++ after) σ'

/-- A row of passes, each with the worlds that it begins and ends with. Between two of them the host and the world may
change in any way, and the table of components does not. -/
inductive Passages (σ₀ : Stage ω) : List (ω × ω) → Outputs → Stage ω → Prop
  | start : Passages σ₀ [] [] σ₀
  | pass {ws : List (ω × ω)} {os os' : Outputs} {σ σ' : Stage ω} (h : Passages σ₀ ws os σ)
      (hpass : Passage ρ b os σ os' σ') : Passages σ₀ (ws ++ [(σ.world, σ'.world)]) os' σ'
  | pause {ws : List (ω × ω)} {os : Outputs} {σ : Stage ω} (h : Passages σ₀ ws os σ) (host : Host) (w : ω) :
      Passages σ₀ ws os ⟨host, σ.instances, w⟩

end Passages

variable {os os' : Outputs} {σ₀ σ σ' : Stage ω} {cs : List InstanceId} {posts : List Post} {ws : List (ω × ω)}

/-- A pass retains outputs, and every hook gets its turn. -/
theorem Passage.attends (h : Passage ρ b os σ os' σ') (hsame : ∀ lexem, ρ.follows lexem lexem)
    (hretained : Retained ρ os σ cs posts) :
    ∃ cs' posts', Retained ρ os' σ' cs' posts' ∧ Attends ρ b σ.world posts σ'.world posts' := by
  cases h with
  | render hadmits hpass =>
      obtain ⟨cs', posts', hcarries⟩ := hretained.render hadmits hpass
      exact ⟨cs', posts', hcarries.retained, hcarries.attends⟩
  | diff hos hadmits hpass hfollows =>
      subst hos
      obtain ⟨cs', posts', hcarries⟩ := hretained.diff hadmits hpass hfollows
      exact ⟨cs', posts', hcarries.retained, hcarries.attends⟩
  | update hid hpass hfollows =>
      have hheld := hretained.holds.mem_iff_reachable.mpr hid
      obtain ⟨cs', posts', hcarries⟩ := hretained.update hheld hpass hsame hfollows
      exact ⟨cs', posts', hcarries.retained, hcarries.attends⟩
  | remove hos hpass =>
      subst hos
      obtain ⟨cs', posts', hcarries, -⟩ := hretained.remove hpass
      exact ⟨cs', posts', hcarries.retained, hcarries.attends⟩

/-- What an ear has heard in a row of passes: each hook of the outputs stands at the end of a row of its own, and what
is told in a pass is what the rows are told in it, one after the other. -/
structure Chronicled (ear : Ear b) (ws : List (ω × ω)) (posts : List Post) (rows : List HookRow) : Prop where
  length : ∀ row ∈ rows, row.turns.length = ws.length
  heard : ∀ i (hi : i < ws.length), ear.heard ws[i].2 = ear.heard ws[i].1 ++ HookRow.column rows i
  standing : rows.filterMap HookRow.standing = (hooksOf posts).map hookOf

/-- Another pass makes the rows longer. -/
theorem Chronicled.pass {ear : Ear b} {rows : List HookRow} {posts' : List Post} (hheeds : ρ.HeedsHooks)
    (h : Chronicled ear ws posts rows) (hattends : Attends ρ b σ.world posts σ'.world posts') :
    ∃ rows', Chronicled ear (ws ++ [(σ.world, σ'.world)]) posts' rows' := by
  obtain ⟨calls, hturns, hheard⟩ := hattends hheeds ear
  obtain ⟨rows', hrows', hstanding⟩ := hturns.lengthens h.length h.standing
  refine ⟨rows', ⟨fun row hrow => by simp [hrows'.length row hrow], fun i hi => ?_, hstanding⟩⟩
  rw [List.length_append, List.length_singleton] at hi
  rcases Nat.lt_succ_iff_lt_or_eq.mp hi with hlt | rfl
  · rw [List.getElem_append_left hlt, hrows'.before i hlt]
    exact h.heard i hlt
  · simpa [hrows'.now] using hheard

/-- Every row of passes is chronicled. -/
theorem Passages.chronicled (h : Passages ρ b σ₀ ws os σ) (hheeds : ρ.HeedsHooks)
    (hsame : ∀ lexem, ρ.follows lexem lexem) (ear : Ear b) :
    ∃ cs posts rows, Retained ρ os σ cs posts ∧ Chronicled ear ws posts rows := by
  induction h with
  | start => exact ⟨[], [], [], .empty σ₀, ⟨by simp, by simp, rfl⟩⟩
  | pass _ hpass ih =>
      obtain ⟨cs, posts, rows, hretained, hchronicled⟩ := ih
      obtain ⟨cs', posts', hretained', hattends⟩ := hpass.attends hsame hretained
      obtain ⟨rows', hchronicled'⟩ := hchronicled.pass hheeds hattends
      exact ⟨cs', posts', rows', hretained', hchronicled'⟩
  | pause _ host w ih =>
      obtain ⟨cs, posts, rows, ⟨hpaired, hholds, hnodup, hposted⟩, hchronicled⟩ := ih
      exact ⟨cs, posts, rows, ⟨hpaired, hholds, hnodup, hposted⟩, hchronicled⟩

variable (b) in
/-- The passes that remove slots in one go, with the slots that they remove from a node. -/
inductive Removing : Pass ω Unit → NodeId → List Lexem → List Slot → Prop
  | output (p : NodeId) (r : Rendered) : Removing (teardown b p r) p r.sentence.lexems r.slots
  | slot (p : NodeId) (lexem : Lexem) (slot : Slot) : Removing (teardownSlot b p lexem slot) p [lexem] [slot]

/-- A removal seeks first, and then unmounts what it has found. -/
theorem Removing.phases {m : Pass ω Unit} {p : NodeId} {lexems : List Lexem} {slots : List Slot}
    (h : Removing b m p lexems slots) (hpass : m σ = .ok () σ') :
    ∃ found σ₁, seekSlots b (seekComponent b σ.instances.size) lexems slots σ = .ok found σ₁ ∧
      unmounting b found (fun table h => detachSlots (detachComponent table table.size) p h lexems slots) σ₁ =
        .ok () σ' := by
  cases h with
  | output p r =>
      simp only [teardown, bind_eq_ok, instances_eq_ok] at hpass
      obtain ⟨_, _, ⟨rfl, rfl⟩, found, σ₁, hfound, hunmounting⟩ := hpass
      rw [seekWith_eq] at hfound
      exact ⟨found, σ₁, hfound, by simpa only [detachWith_eq] using hunmounting⟩
  | slot p lexem slot =>
      simp only [teardownSlot, bind_eq_ok, instances_eq_ok] at hpass
      obtain ⟨_, _, ⟨rfl, rfl⟩, found, σ₁, hfound, hunmounting⟩ := hpass
      refine ⟨found, σ₁, ?_, by simpa only [detachSlots] using hunmounting⟩
      simp only [seekSlots, bind_eq_ok, pure_eq_ok]
      exact ⟨found, σ₁, hfound, [], σ₁, ⟨rfl, rfl⟩, List.append_nil _, rfl⟩

/-- A removal in which hooks are told first, each once, while nobody else touches the host; then everything is taken off
the host, and no hook is told anything any more. -/
structure HooksFirst (b : Behaviour ω) (p : NodeId) (lexems : List Lexem) (slots : List Slot) (posts : List Post)
    (σ σ₁ σ' : Stage ω) : Prop where
  unhooking : Unhooking b σ σ₁
  told : ∀ ear : Ear b, ∃ calls, HookTurns (hooksOf posts) calls [] ∧ ear.heard σ₁.world = ear.heard σ.world ++ calls
  detached : σ'.host = detachSlots (detachComponent σ.instances σ.instances.size) p σ₁.host lexems slots
  hushed : Hushed b σ₁.world σ'.world

theorem Removing.hooksFirst {m : Pass ω Unit} {p : NodeId} {lexems : List Lexem} {slots : List Slot}
    (h : Removing b m p lexems slots) (hheeds : ρ.HeedsHooks) (hholds : Holds σ.instances slots cs)
    (hcensus : Census ρ σ.instances p lexems slots posts) (hpass : m σ = .ok () σ') :
    ∃ σ₁, HooksFirst b p lexems slots posts σ σ₁ σ' := by
  have hdepth : ∀ id ∈ cs, σ.instances.size ≤ σ.instances.size + id.index := fun id _ => Nat.le_add_right _ _
  obtain ⟨found, σ₁, hseek, hunmounting⟩ := h.phases hpass
  obtain ⟨rfl, hunhooking⟩ := seekSlots_ok hholds rfl hcensus.length_eq hdepth hseek
  obtain ⟨w₁, w₂, hwill, hdid, rfl⟩ := unmounting_ok hunmounting
  have hattends := (seekSlots_clears hholds [] [] rfl hdepth hcensus hseek).2
  refine ⟨σ₁, hunhooking, fun ear => ?_, by rw [hunhooking.instances_eq], (Hushed.told hwill).trans (.told hdid)⟩
  have hcalls := hattends hheeds ear
  rwa [hooksOf_stillOf] at hcalls

/-- The passes of one engine, in which no hook loses all of its arguments. -/
def Regime.hooking (e : Engine) : Regime where
  engine := some e
  follows lexem old := e.isTarget old.space = true → e.instruction? old = some .onDom → lexem.args = [] → old.args = []
  allows _ _ := True
  whole := false
  args := by
    rintro _ lexem old mark ⟨⟩ hmark hsuits hfollows
    cases hsuits with
    | hook hspace hword => exact hfollows hspace hword
    | _ => cases hmark

theorem Regime.hooking_heedsHooks (e : Engine) : (Regime.hooking e).HeedsHooks := fun n hnone => by
  simp [Regime.judge, Regime.hooking, Mark.isHook] at hnone

/-- A behaviour in which nothing happens but that hooks write down what they are told. -/
def Behaviour.echo : Behaviour (List HookCall) where
  fresh := pure ⟨0⟩
  run _ _ s _ := pure s
  render _ _ _ := pure (Sentence.empty (Lexicon.new "" none) .firstLevel)
  callback _ _ := pure ()
  hookRender hook n args h := do
    modify (· ++ [.render hook n args])
    pure h
  hookDiff hook n args old h := do
    modify (· ++ [.diff hook n args old])
    pure h
  hookRemove hook n args h := do
    modify (· ++ [.remove hook n args])
    pure h
  create _ _ _ := pure ()
  view _ := pure (Sentence.empty (Lexicon.new "" none) .firstLevel)
  lifecycle _ _ := pure ()

/-- What hooks write down is what is heard. -/
def Ear.echo : Ear Behaviour.echo where
  heard := id
  acts h := by cases h with | _ h => cases h; rfl
  render h := by cases h; rfl
  diff h := by cases h; rfl
  remove h := by cases h; rfl

/-- A hook on the parent, and another one in an element of a given name. -/
def Sentence.hooked (tag arg : String) : Sentence :=
  .plain [("onDom", [.hook ⟨1⟩, .str arg]), ("tag", [.str tag, .sentence ⟨0⟩ (.plain [("onDom", [.hook ⟨2⟩])])])]

/-- What the hooks are told when the element is renamed, and when everything is removed in the end. -/
def HookCall.renamed : List HookCall → Bool
  | [.render ⟨1⟩ ⟨0⟩ [.str "a"], .render ⟨2⟩ ⟨1⟩ [], .diff ⟨1⟩ ⟨0⟩ [.str "b"] [.str "a"], .render ⟨2⟩ ⟨2⟩ [],
      .remove ⟨2⟩ ⟨1⟩ [], .remove ⟨1⟩ ⟨0⟩ [.str "b"], .remove ⟨2⟩ ⟨2⟩ []] => true
  | _ => false

/-- An output of such a sentence: every word has arguments, and there are two hooks. -/
def Rendered.hooked (r : Rendered) : Bool :=
  match r.sentence.lexems, r.slots with
  | [⟨_, _, _ :: _⟩, ⟨_, _, _ :: _⟩], [.hook _, .element _ [⟨_, ⟨_, _, [⟨_, _, _ :: _⟩]⟩, [.hook _]⟩]] => true
  | _, _ => false

theorem Rendered.follows_hooked {e : Engine} {t t' : Array Instance} {r r' : Rendered} (h : r.hooked = true)
    (h' : r'.hooked = true) :
    (Regime.hooking e).Follows t r.sentence.lexems r.slots t' r'.sentence.lexems r'.slots := by
  unfold Rendered.hooked at h h'
  split at h
  next hwords hslots =>
    split at h'
    next hwords' hslots' =>
      rintro e ⟨⟩
      rw [hwords, hslots, hwords', hslots']
      have hword {lexem old : Lexem} {first : Arg} {rest : List Arg} (hargs : lexem.args = first :: rest) :
          (Regime.hooking e).follows lexem old := fun _ _ hnone => by simp [hargs] at hnone
      refine .cons (hword rfl) (fun _ => .gone) ?_
        (.cons (hword rfl) (fun _ => .cons (hword rfl) (fun _ => .gone) ?_ .gone) ?_ .gone) <;> rintro _ _ _ _ _ ⟨⟩
    next => cases h'
  next => cases h

end Parlance
