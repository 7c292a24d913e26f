import Parlance.Proofs.Engine.Lodging

/-! A component that is updated on its own. All that this has to do with is the block of its output, and on the parent
what words of the output name; and however updates and other passes take turns, a component leaves nothing behind once
the output that it stands in is removed. -/

namespace Parlance

open Pass

variable {ω : Type} {b : Behaviour ω} {ρ : Regime} {t t' : Array Instance} {p : NodeId} {r r' : Rendered}
variable {posts posts' : List Post} {σ σ' : Stage ω} {id : InstanceId} {h₀ : Host}

/-- An output without hooks: no word says `onDom`, and no slot has one. -/
structure Rendered.Hookless (t : Array Instance) (p : NodeId) (r : Rendered) : Prop where
  words : ∀ word ∈ r.words t p, Instruction.ofName? word.2.name ≠ some .onDom
  slots : ∀ q n, ¬ Stands t p r.slots q (.hook n)

/-- A word of one of two outputs under a parent is carried out on the parent itself. -/
def Reaching (t t' : Array Instance) (p : NodeId) (r r' : Rendered) (lexem : Lexem) : Prop :=
  (p, lexem) ∈ r.words t p ∨ (p, lexem) ∈ r'.words t' p

/-- What may be different when one output has come in the place of another: the nodes of that one and nodes that are
new, with everything on them, and on the parent the entries that words name and the listeners that there were. -/
def Region.block (h : Host) (t t' : Array Instance) (p : NodeId) (r r' : Rendered) : Region where
  tops n := r.Has t n ∨ h.count ≤ n.index
  nodes n := (r.Has t n ∨ h.count ≤ n.index) ∨ n = p
  nodes_of_tops _ := .inl
  places n π := (r.Has t n ∨ h.count ≤ n.index) ∨ n = p ∧ ∃ lexem, Reaching t t' p r r' lexem ∧ lexem.Names π
  listeners i := (∃ q id, Stands t p r.slots q (.listener id) ∧ id.number - 1 = i) ∨ h.listeners.size ≤ i
  hooks := False

theorem Region.block_open (h : Host) : (Region.block h t t' p r r').Open h := ⟨fun _ => .inr, fun _ => .inr⟩

/-- The posts of the output of before are inside the block. -/
theorem Census.inside_block (hcensus : Census ρ t p r.sentence.lexems r.slots posts) {cs : List InstanceId}
    (hholds : Holds t r.slots cs) (hhookless : r.Hookless t p) :
    ∀ post ∈ posts, post.Inside (.block h₀ t t' p r r') := by
  intro post hpost
  obtain ⟨slot, hstands, htops, hlistener, hhook⟩ := hcensus.stands post hpost
  have hnode : post.node = p ∨ r.Has t post.node :=
    (hcensus.node_mem post hpost).imp_right fun hmem => hcensus.has_iff.mpr (mem_nodesOf_elements hmem)
  refine ⟨?_, fun n hn => .inl (hcensus.has_iff.mpr (mem_nodesOf.mpr ⟨post, hpost, hn⟩)), fun π hπ => ?_,
    fun id hid => .inl ⟨post.node, id, hlistener id hid ▸ hstands, rfl⟩, fun n hn => ?_⟩
  · exact hnode.elim .inr fun hhas => .inl (.inl hhas)
  · rcases hnode with heq | hhas
    · have hword : (p, post.lexem) ∈ r.words t p := by
        rw [hcensus.words hholds, ← heq]
        exact List.mem_map_of_mem hpost
      exact .inr ⟨heq, post.lexem, .inl hword, hπ⟩
    · exact .inl (.inl hhas)
  · exact hhookless.slots post.node n (hhook n hn ▸ hstands)

/-- The words of the output of afterwards are allowed there. -/
theorem Census.allowed_block (hcensus' : Census ρ t' p r'.sentence.lexems r'.slots posts') {cs' : List InstanceId}
    (hholds' : Holds t' r'.slots cs') (hhookless' : r'.Hookless t' p)
    (hnodes : ∀ n ∈ nodesOf posts', r.Has t n ∨ h₀.count ≤ n.index) :
    (Regime.within (.block h₀ t t' p r r')).Allowed posts' := by
  intro post hpost
  have hword : (post.node, post.lexem) ∈ r'.words t' p := by
    rw [hcensus'.words hholds']
    exact List.mem_map_of_mem hpost
  have hnode : post.node = p ∨ r.Has t post.node ∨ h₀.count ≤ post.node.index :=
    (hcensus'.node_mem post hpost).imp_right fun hmem => hnodes _ (mem_nodesOf_elements hmem)
  refine ⟨hnode.elim .inr .inl, fun π hπ => ?_, fun hname => hhookless'.words _ hword hname⟩
  rcases hnode with heq | hnode
  · exact .inr ⟨heq, post.lexem, .inr (heq ▸ hword), hπ⟩
  · exact .inl hnode

/-- Passes of whatever engines, after which only some words stand on a node, and no hooks anywhere. -/
def Regime.saying (p : NodeId) (words : Lexem → Prop) : Regime :=
  { Regime.loose with
    allows := fun q lexem => (q = p → words lexem) ∧ Instruction.ofName? lexem.name ≠ some .onDom }

/-- What has been bound to a node since is bound there by one of some words. -/
structure Said (p : NodeId) (words : Lexem → Prop) (h₀ : Host) (σ : Stage ω) (posts : List Post) : Prop where
  bound : ∀ id event, (id, event) ∈ σ.host.bound p →
    (id, event) ∈ h₀.bound p ∨ ∃ lexem, words lexem ∧ lexem.stringArg 0 = .ok event
  unhooked : ∀ post ∈ posts, post.mark.isHook = false

theorem Move.said {words : Lexem → Prop} (hmove : Move (.saying p words) b σ posts σ' posts')
    (h : Said p words h₀ σ posts) : Said p words h₀ σ' posts' := by
  obtain ⟨hbound, hposts⟩ := h
  have hkeep : (∀ n, σ'.host.bound n = σ.host.bound n) → (∀ post ∈ posts', post.mark.isHook = false) →
      Said p words h₀ σ' posts' := fun hsame hposts' => ⟨fun id event => by rw [hsame]; exact hbound id event, hposts'⟩
  cases hmove with
  | acted | tabled => exact hkeep (fun _ => rfl) hposts
  | renamed | opened | closed | forgotten | rebound =>
      simp only [List.forall_mem_append, List.forall_mem_cons] at hposts
      exact hkeep (fun _ => rfl) (by simp only [List.forall_mem_append, List.forall_mem_cons]; tauto)
  | put _ hadds | raised _ hadds =>
      simp only [List.forall_mem_append, List.forall_mem_cons] at hposts
      exact hkeep hadds.bound (by simp only [List.forall_mem_append, List.forall_mem_cons]; tauto)
  | taken hdrops | dropped _ _ hdrops =>
      simp only [List.forall_mem_append, List.forall_mem_cons] at hposts
      exact hkeep hdrops.bound (by simp only [List.forall_mem_append, List.forall_mem_cons]; tauto)
  | worded => exact hkeep (Host.Inscribes.entry σ.host _ _ _ rfl).links.bound hposts
  | written =>
      simp only [List.forall_mem_append] at hposts
      exact hkeep (Host.Inscribes.writeAll σ.host _ _).links.bound
        (by simp only [List.forall_mem_append, List.forall_mem_cons]; exact ⟨hposts.1, rfl, hposts.2⟩)
  | rewritten _ hengine => cases hengine
  | cleared _ hengine => cases hengine
  | shown _ _ hstrokes =>
      simp only [List.forall_mem_append, List.forall_mem_cons] at hposts
      exact hkeep hstrokes.inscribes.links.bound (by simpa only [List.forall_mem_append, List.forall_mem_cons])
  | @bound left right q lexem event listener hq hevent _ hallows =>
      simp only [List.forall_mem_append] at hposts
      refine ⟨fun id' event' hmem => ?_, by
        simp only [List.forall_mem_append, List.forall_mem_cons]
        exact ⟨hposts.1, rfl, hposts.2⟩⟩
      rw [Stage.onHost_host, Host.bound_addListener σ.host event listener p hq] at hmem
      by_cases heq : p = q
      · rw [if_pos heq, List.mem_append, List.mem_singleton] at hmem
        rcases hmem with hold | hnew
        · exact hbound _ _ hold
        · obtain ⟨-, rfl⟩ := Prod.mk.inj hnew
          exact .inr ⟨lexem, hallows.1 heq.symm, hevent⟩
      · rw [if_neg heq] at hmem
        exact hbound _ _ hmem
  | @unbound left right q lexem id event =>
      simp only [List.forall_mem_append, List.forall_mem_cons] at hposts
      refine ⟨fun id' event' hmem => hbound id' event' ?_, by simp only [List.forall_mem_append]; tauto⟩
      rw [Stage.onHost_host, Host.bound_removeListener σ.host event id p] at hmem
      split at hmem
      · exact (List.mem_filter.mp hmem).1
      · exact hmem
  | hooked _ _ _ hname hallows => exact absurd hname hallows.2
  | rehooked _ _ _ _ hname hallows => exact absurd hname hallows.2
  | @unhooked left right q n lexem =>
      have hnone := hposts ⟨q, lexem, .hook n⟩ (by simp)
      cases hnone

/-- What is different between two stages is in the block of an output, but for listeners that its words bind to the
parent. -/
structure Local (σ σ' : Stage ω) (p : NodeId) (r r' : Rendered) : Prop where
  confined : σ.host.Confined (.block σ.host σ.instances σ'.instances p r r') σ'.host
  bound : ∀ id event, (id, event) ∈ σ'.host.bound p → (id, event) ∈ σ.host.bound p ∨
    ∃ lexem, Reaching σ.instances σ'.instances p r r' lexem ∧ lexem.stringArg 0 = .ok event

/-- To render a component again is local. -/
theorem update_keeps_local {depth : Nat} {cs : List InstanceId} {lexem : Lexem} (hnodes : b.KeepsNodes)
    (h : Engine.UpdateStep b (Engine.diffWithin b depth) id σ σ') (hholds : Holds σ.instances [.component id] cs)
    (hnodup : cs.Nodup) (hcensus : Census .loose σ.instances p [lexem] [.component id] posts)
    (hgrounded : Grounded σ.host p posts) :
    ∃ i i' r r', σ.instances[id.index]? = some i ∧ i.developed = some r ∧ σ'.instances[id.index]? = some i' ∧
      i'.developed = some r' ∧ i.parent = p ∧
      (r.Hookless σ.instances p → r'.Hookless σ'.instances p → Local σ σ' p r r') := by
  obtain ⟨i, i', r, r', s, w, σ₁, inner, inner', hpresent, hdeveloped, hpaired, ⟨hinner, hinnerNodup⟩, hagree, hrun, rfl,
    hpaired', hinner', hagree', hpresent', hdeveloped', -⟩ := h.opens (diffWithin_renewal (Watch.blind b)) hholds hnodup
  obtain ⟨own, witness, rfl, rfl, -, -, -, hown⟩ := hcensus.of_component hpresent hdeveloped
  refine ⟨i, i', r, r', hpresent, hdeveloped, hpresent', hdeveloped', rfl, fun hhookless hhookless' => ?_⟩
  have hopened := hinner.congr hagree
  have hevolves : ∀ ρ : Regime, ρ.engine = none → Evolves ρ b i.parent (fun _ => True) _ r.sentence.lexems r.slots σ₁
      r'.sentence.lexems r'.slots := fun ρ hρ => by
    have hall := (diffWithin_evolves (ρ := ρ) (fun e he => by simp [hρ] at he) hrun).2.evolves (by simpa using hpaired)
    simpa using hall
  have hownNow := hown.congr hinner hagree
  obtain ⟨posts', hposts', hmoves, -⟩ := (hevolves .loose rfl).moves hopened hinnerNodup hownNow nofun
  have hrow := hmoves hnodes (fun _ _ => trivial) [] [] hgrounded.left fun _ => trivial
  rw [List.nil_append, List.nil_append, List.append_nil, List.append_nil] at hrow
  have hnew : ∀ n ∈ nodesOf posts', r.Has σ.instances n ∨ σ.host.count ≤ n.index := fun n hn =>
    (hrow.nodes n hn).imp_left hown.has_iff.mpr
  have hposts'Now := hposts'.congr hinner' hagree'
  have hnow' := hinner'.congr hagree'
  constructor
  · obtain ⟨posts₁, hposts₁, hwithin, -⟩ := (hevolves (.within (.block σ.host σ.instances
      (σ₁.onInstance id fun i => { i with developed := some r' }).instances i.parent r r')) rfl).moves hopened hinnerNodup
      (hownNow.regime (by rfl) (by rfl)) nofun
    rw [hposts'.unique hposts₁] at hwithin
    have hkeeping := (hwithin hnodes (hposts'Now.allowed_block hnow' hhookless' hnew) [] [] hgrounded.left
      fun _ => trivial).keeping (Region.block_open σ.host) (fun hnone => hnone.elim)
      ⟨.refl _, by simpa using hown.inside_block hinner hhookless⟩
    exact hkeeping.confined
  · let words := Reaching σ.instances (σ₁.onInstance id fun i => { i with developed := some r' }).instances i.parent r r'
    obtain ⟨posts₁, hposts₁, hsaying, -⟩ := (hevolves (.saying i.parent words) rfl).moves hopened hinnerNodup
      (hownNow.regime (by rfl) (by rfl)) nofun
    rw [hposts'.unique hposts₁] at hsaying
    have hallowed : (Regime.saying i.parent words).Allowed posts' := by
      intro post hpost
      have hword : (post.node, post.lexem) ∈ r'.words
          (σ₁.onInstance id fun i => { i with developed := some r' }).instances i.parent := by
        rw [hposts'Now.words hnow']
        exact List.mem_map_of_mem hpost
      exact ⟨fun heq => .inr (heq ▸ hword), hhookless'.words _ hword⟩
    have hstart : Said i.parent words σ.host ((σ.onInstance id fun i => { i with developed := none }).inWorld w) own := by
      refine ⟨fun _ _ => .inl, fun post hpost => ?_⟩
      obtain ⟨slot, hstands, -, -, hhook⟩ := hown.stands post hpost
      cases hmark : post.mark with
      | hook n => exact absurd (hhook n hmark ▸ hstands) (hhookless.slots post.node n)
      | _ => rfl
    have hsaid := (hsaying hnodes hallowed [] [] hgrounded.left fun _ => trivial).preserves
      (fun hmove h => hmove.said h) (by simpa using hstart)
    exact hsaid.bound

section Runs

variable {between : Host → ω → Host → ω → Prop} {σ₀ : Stage ω} {os : Outputs}

/-- After any run, updates of components are local, if hooks do not make the host forget nodes. -/
theorem Run.updates_locally (hnodes : b.KeepsNodes) (hcount : ∀ {h w h' w'}, between h w h' w' → h.count ≤ h'.count)
    (hrun : Run .loose b between σ₀ os σ) (hid : Reachable σ.instances os.slots id)
    (hpass : Engine.updateComponent b id σ = .ok () σ') :
    ∃ i i' r r', σ.instances[id.index]? = some i ∧ i.developed = some r ∧ σ'.instances[id.index]? = some i' ∧
      i'.developed = some r' ∧
      (r.Hookless σ.instances i.parent → r'.Hookless σ'.instances i.parent → Local σ σ' i.parent r r') := by
  obtain ⟨cs, posts, ⟨-, hholds, hnodup, hposted⟩, hgrounded, -, hmade⟩ := hrun.sustained
    (I := fun σ posts => ∀ n ∈ elementsOf posts, n.index < σ.host.count) (fun hmove => hmove.made) (fun h => h) hnodes
    (fun _ h => h) hcount (fun hbetween h n hn => Nat.lt_of_lt_of_le (h n hn) (hcount hbetween)) (by simp [elementsOf])
  obtain ⟨q, lexem, outer, own, outer', left, mid, right, rfl, rfl, hq, hown, hmid, -⟩ :=
    hposted.zoom hholds (hholds.mem_iff_reachable.mpr hid)
  have hparent : q.index < σ.host.count := by
    rcases hq with hq | hq
    · obtain ⟨o, ho, rfl⟩ := List.mem_map.mp hq
      exact hgrounded o ho
    · exact hmade q hq
  obtain ⟨i, i', r, r', hpresent, hdeveloped, hpresent', hdeveloped', rfl, hlocal⟩ := update_keeps_local hnodes
    (Engine.update_ok hpass) hown (hnodup.sublist (by simp)) hmid ⟨hparent, fun n hn => hmade n (by simp [hn])⟩
  exact ⟨i, i', r, r', hpresent, hdeveloped, hpresent', hdeveloped', hlocal⟩

/-- The nodes of a component are those at the top of its output and what is below them. -/
theorem Run.has_below (hquiet : b.Quiet) (hstill : ∀ {h w h' w'}, between h w h' w' → h.Still h')
    (hrun : Run .loose b between σ₀ os σ) (hid : Reachable σ.instances os.slots id) {i : Instance}
    (hpresent : σ.instances[id.index]? = some i) (hdeveloped : i.developed = some r) {n : NodeId}
    (hn : r.Has σ.instances n) : ∃ k, ∃ top ∈ r.nodes σ.instances, σ.host.above k n = some top := by
  obtain ⟨cs, posts, ⟨-, hholds, -, hposted⟩, -, -, hlodged⟩ := hrun.lodged hquiet hstill
  obtain ⟨q, lexem, outer, own, outer', left, mid, right, rfl, rfl, -, hown, hmid, -⟩ :=
    hposted.zoom hholds (hholds.mem_iff_reachable.mpr hid)
  obtain ⟨i₁, r₁, inner, rfl, hpresent₁, hdeveloped₁, -, -, hinner⟩ := hown.of_component
  cases hpresent.symm.trans hpresent₁
  cases hdeveloped.symm.trans hdeveloped₁
  obtain ⟨posts, witness, rfl, -, -, -, -, hcensus⟩ := hmid.of_component hpresent hdeveloped
  have hattached := hlodged.attached
  have hrising := hlodged.rising
  simp only [Rising, linksOf_append] at hattached hrising
  exact Rendered.below_nodes hcensus hinner hattached.left.right.left
    (fun link hlink => hrising link (by simp [hlink])) hn

/-- After any run of successful passes, to update a component whose output has no hooks changes only nodes of its own
output, nodes that are new, and on its parent the part of the children that is the block, entries that words of the
output name, and listeners of such words. If hooks and whatever happens between two passes leave the tree alone, these
nodes are the ones at the top of the output and what is below them; and when an output is removed, no node of a
component in it is attached any more, and of all that was made during the run only what other outputs have. -/
theorem update_local (hnodes : b.KeepsNodes) (hcount : ∀ {h w h' w'}, between h w h' w' → h.count ≤ h'.count)
    (hrun : Run .loose b between σ₀ os σ) :
    (∀ id σ', Reachable σ.instances os.slots id → Engine.updateComponent b id σ = .ok () σ' →
      ∃ i i' r r', σ.instances[id.index]? = some i ∧ i.developed = some r ∧ σ'.instances[id.index]? = some i' ∧
        i'.developed = some r' ∧
        (r.Hookless σ.instances i.parent → r'.Hookless σ'.instances i.parent → Local σ σ' i.parent r r')) ∧
    (b.Quiet → (∀ {h w h' w'}, between h w h' w' → h.Still h') → Host.root.index < σ₀.host.count →
      (∀ id i r n, Reachable σ.instances os.slots id → σ.instances[id.index]? = some i → i.developed = some r →
        r.Has σ.instances n → ∃ k, ∃ top ∈ r.nodes σ.instances, σ.host.above k n = some top) ∧
      ∀ before p root after σ', os = before ++ (p, root) :: after → Engine.remove b p root σ = .ok () σ' →
        (∀ id i r n, Reachable σ.instances root.slots id → σ.instances[id.index]? = some i → i.developed = some r →
          r.Has σ.instances n ∨ i.witness = some n → σ'.host.isAttached n = false) ∧
        ∀ n, σ₀.host.count ≤ n.index → σ'.host.isAttached n = true →
          ∃ o ∈ before ++ after, o.2.Has σ'.instances n) := by
  refine ⟨fun id σ' hid hpass => hrun.updates_locally hnodes hcount hid hpass, fun hquiet hstill hroot =>
    ⟨fun id i r n hid hpresent hdeveloped hn => hrun.has_below hquiet hstill hid hpresent hdeveloped hn, ?_⟩⟩
  rintro before p root after σ' rfl hremove
  obtain ⟨hgone, hattached⟩ := hrun.removed hquiet hstill hroot hremove
  exact ⟨fun id i r n hid hpresent hdeveloped hn => hgone n (hid.has hpresent hdeveloped hn), hattached⟩

end Runs

/-- Components that show the time of the world, as a title of their parent and as a text. -/
def Behaviour.clock : Behaviour String where
  fresh := pure ⟨0⟩
  run _ _ s _ := pure s
  render _ _ _ := pure (.plain [])
  callback _ _ := pure ()
  hookRender _ _ _ h := pure h
  hookDiff _ _ _ _ h := pure h
  hookRemove _ _ _ h := pure h
  create _ _ _ := pure ()
  view _ := do
    let time ← get
    pure (.plain [("attr", [.str "title", .str time]), ("text", [.str time])])
  lifecycle _ _ := pure ()

/-- A text and a clock after it. -/
def Sentence.timed : Sentence := .plain [("text", [.str "It is "]), ("component", [.component ⟨"Clock", ⟨1⟩⟩, .null])]

/-- The output of a clock: a title and the second node, and no hooks. -/
def Rendered.ticking (out : Rendered) (t : Array Instance) : Bool :=
  match out.slots with
  | [.attribute, .text ⟨2⟩] =>
      (out.words t Host.root).all fun word => decide (Instruction.ofName? word.2.name ≠ some .onDom)
  | _ => false

/-- The second slot of an output is a clock. -/
def Rendered.ticks (r : Rendered) (t : Array Instance) : Bool :=
  match r.slots, t[0]? with
  | [.text _, .component ⟨0⟩], some i => decide (i.parent = Host.root) && i.developed.all (·.ticking t)
  | _, _ => false

theorem Rendered.ticking_spec {out : Rendered} (h : out.ticking t = true) :
    out.Hookless t Host.root ∧ ∀ n, out.Has t n → n = ⟨2⟩ := by
  unfold Rendered.ticking at h
  split at h
  next hslots =>
    have hstands : ∀ {p q slot}, Stands t p out.slots q slot → slot = .attribute ∨ slot = .text ⟨2⟩ := by
      intro p q slot hstands
      rw [hslots] at hstands
      cases hstands with
      | here hslot => simpa using hslot
      | plain houter _ hinner =>
          have hnone : ∀ slot ∈ [Slot.attribute, .text ⟨2⟩], slotsOf slot.parts = [] := by simp [Slot.parts]
          rw [hnone _ houter] at hinner
          cases hinner <;> contradiction
      | element houter => simp at houter
      | component houter => simp at houter
    refine ⟨⟨fun word hword => ?_, fun q n hhook => ?_⟩, fun n hn => ?_⟩
    · simpa using List.all_eq_true.mp h word hword
    · rcases hstands hhook with heq | heq <;> cases heq
    · obtain ⟨p, q, slot, hslot, hn⟩ := hn
      rcases hstands hslot with rfl | rfl
      · simp [Slot.tops, Slot.mark, Mark.tops] at hn
      · simpa [Slot.tops, Slot.mark, Slot.ends, Mark.tops] using hn
  next => cases h

theorem Rendered.ticks_spec {r : Rendered} (h : r.ticks t = true) :
    Reachable t (Outputs.slots [(Host.root, r)]) ⟨0⟩ ∧ ∀ i out, t[(⟨0⟩ : InstanceId).index]? = some i →
      i.developed = some out → i.parent = Host.root ∧ out.ticking t = true := by
  unfold Rendered.ticks at h
  split at h
  next i hslots hpresent =>
    rw [Bool.and_eq_true, decide_eq_true_eq] at h
    refine ⟨.here (by simp [Outputs.slots, hslots]), fun i' out hi hdeveloped => ?_⟩
    obtain rfl := Option.some.inj (hpresent.symm.trans hi)
    rw [hdeveloped] at h
    exact h
  next => cases h

/-- A clock goes on: the text before it stays as it is, and once the output is removed nothing of it is attached. -/
theorem update_local_clock : ∃ r σ₁ σ₂ σ₃,
    Engine.plain.render Behaviour.clock Host.root .timed ⟨.new, #[], "one"⟩ = .ok r σ₁ ∧
    Engine.updateComponent Behaviour.clock ⟨0⟩ ⟨σ₁.host, σ₁.instances, "two"⟩ = .ok () σ₂ ∧
    (σ₁.host.content ⟨2⟩).kind ≠ (σ₂.host.content ⟨2⟩).kind ∧ σ₂.host.node ⟨1⟩ = σ₁.host.node ⟨1⟩ ∧
    Engine.remove Behaviour.clock Host.root r σ₂ = .ok () σ₃ ∧ ∀ n, 1 ≤ n.index → σ₃.host.isAttached n = false := by
  have hcheck : Pass.check (Engine.plain.render Behaviour.clock Host.root .timed) ⟨.new, #[], "one"⟩
      (fun r σ₁ => (r.ticks σ₁.instances && decide (1 < σ₁.host.count)) &&
        Pass.check (Engine.updateComponent Behaviour.clock ⟨0⟩) ⟨σ₁.host, σ₁.instances, "two"⟩ fun _ σ₂ =>
          (r.ticks σ₂.instances && decide ((σ₁.host.content ⟨2⟩).kind ≠ (σ₂.host.content ⟨2⟩).kind)) &&
            Pass.check (Engine.remove Behaviour.clock Host.root r) σ₂ fun _ _ => true) = true := by decide +kernel
  obtain ⟨r, σ₁, hrender, hcheck⟩ := exists_of_check hcheck
  simp only [Bool.and_eq_true, decide_eq_true_eq] at hcheck
  obtain ⟨⟨hfirst, hcount⟩, hcheck⟩ := hcheck
  obtain ⟨⟨⟩, σ₂, hupdate, hcheck⟩ := exists_of_check hcheck
  simp only [Bool.and_eq_true, decide_eq_true_eq] at hcheck
  obtain ⟨⟨hsecond, hchanged⟩, hcheck⟩ := hcheck
  obtain ⟨⟨⟩, σ₃, hremove, -⟩ := exists_of_check hcheck
  have hquiet : Behaviour.clock.Quiet := by
    rintro h w h' w' (⟨⟨⟩⟩ | ⟨⟨⟩⟩ | ⟨⟨⟩⟩) <;>
      exact ⟨.refl h, fun _ => rfl, [], (List.append_nil _).symm, by simp⟩
  let between : Host → String → Host → String → Prop := fun h _ h' _ => h.Still h'
  have hrun : Run .loose Behaviour.clock between ⟨.new, #[], "one"⟩ [(Host.root, r)] ⟨σ₁.host, σ₁.instances, "two"⟩ :=
    .between (.render .start (fun _ he => by cases he) (by decide) hrender fun _ _ => trivial)
      ⟨.refl _, fun _ => rfl, [], (List.append_nil _).symm, by simp⟩
  obtain ⟨hreachable, hout⟩ := Rendered.ticks_spec hfirst
  obtain ⟨-, hout'⟩ := Rendered.ticks_spec hsecond
  have hrun' : Run .loose Behaviour.clock between ⟨.new, #[], "one"⟩ [(Host.root, r)] σ₂ :=
    .update hrun hreachable hupdate (fun _ _ _ _ _ _ _ _ _ he => by cases he) fun _ _ => trivial
  obtain ⟨i, i', out, out', hpresent, hdeveloped, hpresent', hdeveloped', hlocal⟩ :=
    (update_local hquiet.keepsNodes (fun hstill => Nat.le_of_eq hstill.tree.count.symm) hrun).1 ⟨0⟩ σ₂ hreachable hupdate
  obtain ⟨hparent, hticking⟩ := hout i out hpresent hdeveloped
  obtain ⟨-, hticking'⟩ := hout' i' out' hpresent' hdeveloped'
  rw [hparent] at hlocal
  obtain ⟨hhookless, hhas⟩ := Rendered.ticking_spec hticking
  have hkept := (hlocal hhookless (Rendered.ticking_spec hticking').1).confined.node ⟨1⟩ (by
    rintro ((hhad | hnew) | hroot)
    · cases hhas _ hhad
    · exact Nat.not_le.mpr hcount hnew
    · cases hroot)
  obtain ⟨-, hremoved⟩ := (update_local hquiet.keepsNodes (fun hstill => Nat.le_of_eq hstill.tree.count.symm) hrun').2
    hquiet (fun hstill => hstill) (by decide)
  refine ⟨r, σ₁, σ₂, σ₃, hrender, hupdate, hchanged, hkept, hremove, fun n hn => ?_⟩
  by_contra hattached
  obtain ⟨o, ho, -⟩ := (hremoved [] Host.root r [] σ₃ rfl hremove).2 n hn (by simpa using hattached)
  cases ho

end Parlance
