import Parlance.Host.Query
import Parlance.Proofs.Engine.Retention
import Parlance.Proofs.Host.Traces

/-! What a run leaves behind. Whatever an output has put on the node that it stands under is known from its posts: the
entries, the nodes and the listeners of its words, and what its hooks have left there. A post that goes takes all of it
along, so when the output has been removed the node bears what it bore before the run, and nothing that was made on the
way is reached from the root. -/

namespace Parlance

open Pass

variable {ω : Type}

/-- A node of a host that knows all of its children and listeners. -/
structure Host.Knows (h : Host) (p : NodeId) : Prop where
  root : Host.root.index < h.count
  node : p.index < h.count
  children : ∀ n ∈ h.children p, n.index < h.count
  bound : ∀ entry ∈ h.bound p, entry.1.number - 1 < h.listeners.size

/-- Some traces of a node have gone and others have come. What has gone is what it was on a host at first, and a node
that was made since then stands where it stood, under another such node, or where it has been put. -/
structure Host.Exchanges (p : NodeId) (h₀ : Host) (gone come : Trace → Prop) (put : NodeId → NodeId → Prop)
    (h h' : Host) : Prop where
  count : h.count ≤ h'.count
  sizes : h.listeners.size ≤ h'.listeners.size
  alters : h.Alters p h₀.listeners.size (fun t => gone t ∨ come t) h'
  left : ∀ t, gone t → ¬ come t → Resumes p h₀ h' t
  lodged : ∀ n q, h₀.count ≤ n.index → h'.parent n = some q → h₀.count ≤ q.index ∨
    h.parent n = some q ∧ (q = p → ¬ gone (.child n)) ∨ put q n

/-- What hooks have put under the node. -/
def PutUnder (p : NodeId) (come : Trace → Prop) (q n : NodeId) : Prop := q = p ∧ come (.child n)

/-- What hooks leave on a node, as it can be told from a world, and that they undo it: a call takes back what the hook
left for the arguments of the call before, and after a removal it is as it was at first. Hooks may change entries that
were there at first, and children and listeners that they bring are new. -/
structure Undoing (b : Behaviour ω) (h₀ : Host) (p : NodeId) where
  leaves : ω → Identity → NodeId → List Arg → Trace → Prop
  new : ∀ {w hook n args t}, leaves w hook n args t → h₀.Bears p t → ∃ π, t = .entry π
  acts : ∀ {w w'}, b.Acts w w' → ∀ {hook n args t}, leaves w hook n args t → leaves w' hook n args t
  hooks : ∀ {h w h' w'}, b.Hooks h w h' w' → ∀ {hook n args t}, leaves w hook n args t → leaves w' hook n args t
  render : ∀ {hook n args h w h' w'}, b.hookRender hook n args h w = .ok h' w' →
    Host.Exchanges p h₀ (fun _ => False) (leaves w' hook n args) (PutUnder p (leaves w' hook n args)) h h'
  diff : ∀ {hook n args old h w h' w'}, b.hookDiff hook n args old h w = .ok h' w' →
    Host.Exchanges p h₀ (leaves w' hook n old) (leaves w' hook n args) (PutUnder p (leaves w' hook n args)) h h'
  remove : ∀ {hook n args h w h' w'}, b.hookRemove hook n args h w = .ok h' w' →
    Host.Exchanges p h₀ (leaves w' hook n args) (fun _ => False) (fun _ _ => False) h h'

/-- What a word has put on its node. -/
def Post.puts (post : Post) : Trace → Prop
  | .entry π => post.mark = .entries ∧ ∃ i, Instruction.ofName? post.lexem.name = some i ∧ π ∈ post.lexem.spots i
  | .child n => n ∈ post.mark.tops
  | .listener entry => post.mark = .listener entry.1

/-- The passes of one engine that write on a node only what was not there before. No word loses all of its arguments, and
a list that is still the same list has the same items. -/
def Regime.reversible (e : Engine) (h₀ : Host) (p : NodeId) : Regime where
  engine := some e
  follows lexem old := (lexem.args = [] → old.args = []) ∧
    ∀ i items items', lexem.arg 0 = .list i items → old.arg 0 = .list i items' → items = items'
  allows n lexem := n = p → e.isTarget lexem.space = true → ∀ i, e.instruction? lexem = some i →
    ∀ π ∈ lexem.spots i, ¬ h₀.Bears p (.entry π)
  args _ _ _ h := h.1

variable {b : Behaviour ω} {h₀ : Host} {p : NodeId} (U : Undoing b h₀ p)

namespace Undoing

/-- Nobody else writes on the host, and what hooks have left is still known. -/
def Between (h : Host) (w : ω) (h' : Host) (w' : ω) : Prop :=
  h' = h ∧ ∀ {hook n args t}, U.leaves w hook n args t → U.leaves w' hook n args t

include U in
/-- No hook makes the host forget nodes. -/
theorem keepsNodes : b.KeepsNodes := by
  rintro h w h' w' (hcall | hcall | hcall)
  · exact (U.render hcall).count
  · exact (U.diff hcall).count
  · exact (U.remove hcall).count

/-- What a post accounts for on the node. -/
def Owns (w : ω) (post : Post) (t : Trace) : Prop :=
  post.node = p ∧ post.puts t ∨
    ∃ n hook, post.mark = .hook n ∧ post.lexem.hookArg = .ok hook ∧ U.leaves w hook n post.lexem.hookArgs t

/-- The nodes of a post that stand under a node. -/
def Lodges (w : ω) (post : Post) (q n : NodeId) : Prop :=
  post.node = q ∧ n ∈ post.mark.tops ∨ q = p ∧ U.Owns w post (.child n)

end Undoing

/-- What a post has is later than the host at first. -/
structure Post.Late (p : NodeId) (h₀ h : Host) (post : Post) : Prop where
  tops : ∀ n ∈ post.mark.tops, h₀.count ≤ n.index
  entries : post.node = p → ∀ π, post.puts (.entry π) → ¬ h₀.Bears p (.entry π)
  listener : ∀ id, post.mark = .listener id → h₀.listeners.size < id.number

/-- What holds after every move of a run: the node has still the children and listeners that it had, and posts account
for whatever else is not as it was, and for where the nodes stand that were made. -/
structure Accounted (σ : Stage ω) (posts : List Post) : Prop where
  count : h₀.count ≤ σ.host.count
  sizes : h₀.listeners.size ≤ σ.host.listeners.size
  preserves : h₀.Preserves p σ.host
  borne : ∀ t, h₀.Resumes p σ.host t ∨ ∃ post ∈ posts, U.Owns σ.world post t
  lodged : ∀ n q, h₀.count ≤ n.index → σ.host.parent n = some q →
    h₀.count ≤ q.index ∨ ∃ post ∈ posts, U.Lodges σ.world post q n
  elements : ∀ n ∈ elementsOf posts, n.index < σ.host.count
  late : ∀ post ∈ posts, post.Late p h₀ σ.host

variable {U} {σ : Stage ω} {posts left olds news right : List Post} {h : Host} {w : ω} {gone come : Trace → Prop}
variable {put : NodeId → NodeId → Prop}

namespace Accounted

/-- Posts come in the place of others. -/
theorem exchange (olds news : List Post) (hknows : h₀.Knows p) (haccounted : Accounted U σ (left ++ (olds ++ right)))
    (hexchanges : Host.Exchanges p h₀ gone come put σ.host h)
    (hworld : ∀ {hook n args t}, U.leaves σ.world hook n args t → U.leaves w hook n args t)
    (hnew : ∀ t, gone t ∨ come t → h₀.Bears p t → ∃ π, t = .entry π) (hcome : ∀ t, come t → ∃ post ∈ news, U.Owns w post t)
    (hput : ∀ q n, put q n → ∃ post ∈ news, U.Lodges w post q n)
    (hgone : ∀ post ∈ olds, ∀ t, U.Owns w post t → gone t ∨ ∃ post ∈ news, U.Owns w post t)
    (hlodged : ∀ post ∈ olds, ∀ n ∈ post.mark.tops, h.parent n = some post.node →
      h₀.count ≤ post.node.index ∨ ∃ other ∈ news, other.node = post.node ∧ n ∈ other.mark.tops)
    (helements : ∀ n ∈ elementsOf news, n.index < h.count) (hlate : ∀ post ∈ news, post.Late p h₀ h) :
    Accounted U ⟨h, σ.instances, w⟩ (left ++ (news ++ right)) := by
  have hkept : ∀ {post t}, U.Owns σ.world post t → U.Owns w post t := by
    rintro post t (hown | ⟨n, hook, hmark, hhook, hleaves⟩)
    · exact .inl hown
    · exact .inr ⟨n, hook, hmark, hhook, hworld hleaves⟩
  have hmem : ∀ {post : Post}, post ∈ left ++ (olds ++ right) →
      post ∈ olds ∨ post ∈ left ++ (news ++ right) := by
    simp only [List.mem_append]
    tauto
  have hsub : ∀ {post : Post}, post ∈ news → post ∈ left ++ (news ++ right) := by
    simp only [List.mem_append]
    tauto
  -- what was accounted for is so still, or it has gone
  have howned : ∀ t, (∃ post ∈ left ++ (olds ++ right), U.Owns σ.world post t) →
      gone t ∨ ∃ post ∈ left ++ (news ++ right), U.Owns w post t := by
    rintro t ⟨post, hpost, hown⟩
    rcases hmem hpost with hold | hother
    · rcases hgone post hold t (hkept hown) with hg | ⟨other, hother, howns⟩
      · exact .inl hg
      · exact .inr ⟨other, hsub hother, howns⟩
    · exact .inr ⟨post, hother, hkept hown⟩
  have hentered : ∀ t, come t → ∃ post ∈ left ++ (news ++ right), U.Owns w post t := fun t ht => by
    obtain ⟨post, hpost, hown⟩ := hcome t ht
    exact ⟨post, hsub hpost, hown⟩
  refine ⟨Nat.le_trans haccounted.count hexchanges.count, Nat.le_trans haccounted.sizes hexchanges.sizes,
    hexchanges.alters.preserves haccounted.preserves hnew hknows.bound, fun t => ?_, fun n q hn hq => ?_,
    fun n hn => ?_, fun post hpost => ?_⟩
  · by_cases hin : come t
    · exact .inr (hentered t hin)
    by_cases hout : gone t
    · exact .inl (hexchanges.left t hout hin)
    · rcases haccounted.borne t with hold | hown
      · exact .inl (hexchanges.alters.resumes (fun hchanged => hchanged.elim hout hin) hold)
      · exact .inr ((howned t hown).resolve_left hout)
  · rcases hexchanges.lodged n q hn hq with hmade | ⟨hparent, hstays⟩ | hc
    · exact .inl hmade
    · rcases haccounted.lodged n q hn hparent with hmade | ⟨post, hpost, hlodges⟩
      · exact .inl hmade
      rcases hlodges with ⟨rfl, htop⟩ | ⟨rfl, hown⟩
      · rcases hmem hpost with hold | hother
        · rcases hlodged post hold n htop hq with hmade | ⟨other, hother, hnode, htop'⟩
          · exact .inl hmade
          · exact .inr ⟨other, hsub hother, .inl ⟨hnode, htop'⟩⟩
        · exact .inr ⟨post, hother, .inl ⟨rfl, htop⟩⟩
      · obtain ⟨other, hother, howns⟩ := (howned _ ⟨post, hpost, hown⟩).resolve_left (hstays rfl)
        exact .inr ⟨other, hother, .inr ⟨rfl, howns⟩⟩
    · obtain ⟨post, hpost, hlodges⟩ := hput q n hc
      exact .inr ⟨post, hsub hpost, hlodges⟩
  · simp only [elementsOf_append, List.mem_append] at hn
    rcases hn with hn | hn | hn
    · exact Nat.lt_of_lt_of_le (haccounted.elements n (by simp [hn])) hexchanges.count
    · exact helements n hn
    · exact Nat.lt_of_lt_of_le (haccounted.elements n (by simp [hn])) hexchanges.count
  · simp only [List.mem_append] at hpost
    have hold : post ∈ left ++ (olds ++ right) → post.Late p h₀ h := fun hmem =>
      ⟨(haccounted.late post hmem).tops, (haccounted.late post hmem).entries, (haccounted.late post hmem).listener⟩
    rcases hpost with hpost | hpost | hpost
    · exact hold (by simp [hpost])
    · exact hlate post hpost
    · exact hold (by simp [hpost])

end Accounted

namespace Host.Exchanges

variable {h' : Host} {q : NodeId} {ns : List NodeId} {anchor : Option NodeId} {places : List Place}

/-- Where nodes stand is as it was. -/
theorem links (hsizes : h.listeners.size ≤ h'.listeners.size) (hcount : h'.count = h.count)
    (hparent : ∀ n, h'.parent n = h.parent n) (halters : h.Alters p h₀.listeners.size (fun t => gone t ∨ come t) h')
    (hleft : ∀ t, gone t → ¬ come t → Resumes p h₀ h' t) (hchild : ∀ n, ¬ gone (.child n)) :
    Exchanges p h₀ gone come (fun _ _ => False) h h' where
  count := Nat.le_of_eq hcount.symm
  sizes := hsizes
  alters := halters
  left := hleft
  lodged n _ _ hq := .inr (.inl ⟨hparent n ▸ hq, fun _ => hchild n⟩)

/-- More nodes might have been put somewhere. -/
theorem putting (hexchanges : Exchanges p h₀ gone come (fun _ _ => False) h h') : Exchanges p h₀ gone come put h h' where
  count := hexchanges.count
  sizes := hexchanges.sizes
  alters := hexchanges.alters
  left := hexchanges.left
  lodged n q hn hq := (hexchanges.lodged n q hn hq).imp_right fun hstood => .inl (hstood.resolve_right id)

theorem refl (h : Host) : Exchanges p h₀ (fun _ => False) (fun _ => False) (fun _ _ => False) h h :=
  .links (Nat.le_refl _) rfl (fun _ => rfl) (.refl h) nofun fun _ => id

/-- A new node has been put somewhere. -/
theorem adds (hadds : Host.Adds q anchor h h') (hp : p.index < h.count) :
    Exchanges p h₀ (fun _ => False) (fun t => q = p ∧ t = .child h.next) (fun q' n => q' = q ∧ n = h.next) h h' where
  count := Nat.le_of_succ_le (Nat.le_of_eq hadds.puts.count.symm)
  sizes := Nat.le_of_eq (congrArg Array.size hadds.targets.symm)
  alters := .adds hadds hp fun hq => .inr ⟨hq, rfl⟩
  left _ := False.elim
  lodged n q' _ hq' := by
    rw [hadds.parent] at hq'
    split at hq'
    next heq =>
      cases hq'
      exact .inr (.inr ⟨rfl, heq⟩)
    next => exact .inr (.inl ⟨hq', fun _ => id⟩)

/-- Nodes have been taken away from somewhere. -/
theorem drops (hdrops : Host.Drops q ns h h') :
    Exchanges p h₀ (fun t => q = p ∧ ∃ n ∈ ns, t = .child n) (fun _ => False) (fun _ _ => False) h h' where
  count := Nat.le_of_eq hdrops.takes.count.symm
  sizes := Nat.le_of_eq (congrArg Array.size hdrops.targets.symm)
  alters := .drops hdrops fun hq n hn => .inl ⟨hq, n, hn, rfl⟩
  left t := by
    rintro ⟨rfl, n, hn, rfl⟩ - hbears
    rw [Host.Bears, hdrops.takes.children, if_pos rfl, List.mem_filter] at hbears
    simp [hn] at hbears
  lodged n q' _ hq' := by
    rw [hdrops.parent] at hq'
    split at hq'
    · cases hq'
    next hn =>
      refine .inr (.inl ⟨hq', fun _ hgone => ?_⟩)
      obtain ⟨-, m, hm, heq⟩ := hgone
      cases heq
      exact hn hm

/-- Entries have been written and erased, and those that have gone are not there any more. -/
theorem strokes (hstrokes : Host.Strokes q places h h') (hplaces : q = p → ∀ π ∈ places, gone (.entry π) ∨ come (.entry π))
    (hleft : ∀ t, gone t → ¬ come t → Resumes p h₀ h' t) (hchild : ∀ n, ¬ gone (.child n)) :
    Exchanges p h₀ gone come (fun _ _ => False) h h' :=
  .links (Nat.le_of_eq (congrArg Array.size hstrokes.inscribes.links.targets.symm)) hstrokes.inscribes.tree.count
    hstrokes.inscribes.links.parent (.strokes hstrokes hplaces) hleft hchild

end Host.Exchanges

section Moves

variable {e : Engine} {σ' : Stage ω} {posts' : List Post} {q n : NodeId} {lexem old : Lexem}

namespace Accounted

variable (hknows : h₀.Knows p)
include hknows

/-- Nothing of the node is altered. -/
theorem stay (haccounted : Accounted U σ posts)
    (hexchanges : Host.Exchanges p h₀ (fun _ => False) (fun _ => False) (fun _ _ => False) σ.host h)
    (hworld : ∀ {hook n args t}, U.leaves σ.world hook n args t → U.leaves w hook n args t) :
    Accounted U ⟨h, σ.instances, w⟩ posts := by
  have hnow : Accounted U σ ([] ++ ([] ++ posts)) := haccounted
  exact exchange [] [] hknows hnow hexchanges hworld (by simp) (by simp) (by simp) (by simp) (by simp)
    (by simp [elementsOf]) (by simp)

theorem node_lt (haccounted : Accounted U σ posts) : p.index < σ.host.count :=
  Nat.lt_of_lt_of_le hknows.node haccounted.count

/-- A node that is made now was not there at first. -/
theorem next_new (haccounted : Accounted U σ posts) : ¬ h₀.Bears p (.child σ.host.next) := fun hmem =>
  Nat.not_lt.mpr haccounted.count (hknows.children _ hmem)

/-- Nodes come and go among those of a post. -/
theorem nodes {ns ns' : List NodeId} (haccounted : Accounted U σ (left ++ ⟨q, old, .nodes ns⟩ :: right))
    (hexchanges : Host.Exchanges p h₀ gone come put σ.host h) (hnew : ∀ t, gone t ∨ come t → ¬ h₀.Bears p t)
    (hcome : ∀ t, come t → q = p ∧ ∃ n ∈ ns', t = .child n) (hput : ∀ q' n, put q' n → q' = q ∧ n ∈ ns')
    (hgone : ∀ n ∈ ns, n ∉ ns' → (q = p → gone (.child n)) ∧ h.parent n ≠ some q)
    (hlate : ∀ n ∈ ns', h₀.count ≤ n.index) :
    Accounted U (σ.onHost fun _ => h) (left ++ ⟨q, lexem, .nodes ns'⟩ :: right) := by
  refine exchange [⟨q, old, .nodes ns⟩] [⟨q, lexem, .nodes ns'⟩] hknows haccounted hexchanges id
    (fun t ht hbears => absurd hbears (hnew t ht)) (fun t ht => ?_) (fun q' n hn => ?_) ?_ ?_
    (by simp [elementsOf, Post.element?]) ?_
  · obtain ⟨hq, n, hn, rfl⟩ := hcome t ht
    exact ⟨_, List.mem_singleton_self _, .inl ⟨hq, hn⟩⟩
  · obtain ⟨rfl, hn⟩ := hput q' n hn
    exact ⟨_, List.mem_singleton_self _, .inl ⟨rfl, hn⟩⟩
  · rintro post hpost t (⟨hq, hputs⟩ | ⟨m, hook, hmark, -⟩) <;> rw [List.mem_singleton.mp hpost] at *
    · cases t with
      | child n =>
          by_cases hn : n ∈ ns'
          · exact .inr ⟨_, List.mem_singleton_self _, .inl ⟨hq, hn⟩⟩
          · exact .inl ((hgone n hputs hn).1 hq)
      | entry π => exact absurd hputs.1 (by simp)
      | listener entry => cases hputs
    · cases hmark
  · intro post hpost n hn hparent
    rw [List.mem_singleton.mp hpost] at *
    by_cases hmem : n ∈ ns'
    · exact .inr ⟨_, List.mem_singleton_self _, rfl, hmem⟩
    · exact absurd hparent (hgone n hn hmem).2
  · intro post hpost
    rw [List.mem_singleton.mp hpost]
    exact ⟨hlate, fun _ π hputs => absurd hputs.1 (by simp), (by simp)⟩

/-- A new element is put somewhere. -/
theorem raised {anchor : Option NodeId} (haccounted : Accounted U σ (left ++ right)) (hadds : Host.Adds q anchor σ.host h) :
    Accounted U (σ.onHost fun _ => h) (left ++ ⟨q, lexem, .element σ.host.next⟩ :: right) := by
  refine exchange [] [⟨q, lexem, .element σ.host.next⟩] hknows haccounted (.adds hadds (haccounted.node_lt hknows)) id
    ?_ ?_ ?_ (by simp) (by simp) ?_ ?_
  · rintro t (⟨⟨⟩⟩ | ⟨-, rfl⟩) hbears
    exact absurd hbears (haccounted.next_new hknows)
  · rintro t ⟨hq, rfl⟩
    exact ⟨_, List.mem_singleton_self _, .inl ⟨hq, List.mem_singleton_self _⟩⟩
  · rintro q' n ⟨rfl, rfl⟩
    exact ⟨_, List.mem_singleton_self _, .inl ⟨rfl, List.mem_singleton_self _⟩⟩
  · intro n hn
    obtain rfl : n = σ.host.next := by simpa [elementsOf, Post.element?] using hn
    rw [hadds.puts.count]
    exact Nat.lt_succ_self _
  · intro post hpost
    rw [List.mem_singleton.mp hpost]
    exact ⟨fun n hn => List.mem_singleton.mp hn ▸ haccounted.count, fun _ π hputs => absurd hputs.1 (by simp), (by simp)⟩

/-- An element is taken away, and everything inside it is under nodes that were made. -/
theorem dropped {inner : List Post} (haccounted : Accounted U σ (left ++ (inner ++ ⟨q, lexem, .element n⟩ :: right)))
    (hinner : ∀ post ∈ inner, post.node = n ∨ post.node ∈ elementsOf inner)
    (hstill : ∀ post ∈ inner, ∀ m, post.mark ≠ .hook m) (hdrops : Host.Drops q [n] σ.host h) :
    Accounted U (σ.onHost fun _ => h) (left ++ right) := by
  have hposts : left ++ (inner ++ ⟨q, lexem, .element n⟩ :: right) =
      left ++ ((inner ++ [⟨q, lexem, .element n⟩]) ++ right) := by simp
  rw [hposts] at haccounted
  have hmade : ∀ post ∈ inner ++ [⟨q, lexem, .element n⟩], ∀ m ∈ post.mark.tops, h₀.count ≤ m.index := fun post hpost =>
    (haccounted.late post (by simp only [List.mem_append] at hpost ⊢; tauto)).tops
  have hunder : ∀ post ∈ inner, h₀.count ≤ post.node.index := by
    intro post hpost
    rcases hinner post hpost with hnode | hmem
    · exact hnode ▸ hmade ⟨q, lexem, .element n⟩ (by simp) n (List.mem_singleton_self n)
    · obtain ⟨other, hother, hmark⟩ := mem_elementsOf.mp hmem
      exact hmade other (by simp [hother]) post.node (by simp [hmark, Mark.tops])
  refine exchange _ [] hknows haccounted (.drops hdrops) id ?_ (by simp) (by simp) ?_ ?_ (by simp [elementsOf])
    (by simp)
  · rintro t (⟨-, m, hm, rfl⟩ | ⟨⟨⟩⟩) hbears
    have hn := hmade ⟨q, lexem, .element n⟩ (by simp) m hm
    exact absurd (hknows.children m hbears) (Nat.not_lt.mpr hn)
  · intro post hpost t howns
    rcases List.mem_append.mp hpost with hpost | hpost
    · rcases howns with ⟨hp, -⟩ | ⟨m, hook, hmark, -⟩
      · exact absurd (hp ▸ hknows.node) (Nat.not_lt.mpr (hunder post hpost))
      · exact absurd hmark (hstill post hpost m)
    · rw [List.mem_singleton.mp hpost] at howns
      rcases howns with ⟨hq, hputs⟩ | ⟨m, hook, hmark, -⟩
      · cases t with
        | child m => exact .inl ⟨hq, m, hputs, rfl⟩
        | entry π => exact absurd hputs.1 (by simp)
        | listener entry => cases hputs
      · cases hmark
  · intro post hpost m hm hparent
    rcases List.mem_append.mp hpost with hpost | hpost
    · exact .inl (hunder post hpost)
    · rw [List.mem_singleton.mp hpost] at hm hparent
      have hgone : h.parent m = none := (hdrops.parent m).trans (if_pos hm)
      rw [hgone] at hparent
      cases hparent

/-- The posts of words that put entries are exchanged for one another. -/
theorem entries (olds news : List Post) (oldPlaces newPlaces : List Place)
    (haccounted : Accounted U σ (left ++ (olds ++ right)))
    {i : Instruction} (holds : ∀ post ∈ olds, post.node = q ∧ post.mark = .entries ∧
      Instruction.ofName? post.lexem.name = some i ∧ ∀ π ∈ post.lexem.spots i, π ∈ oldPlaces)
    (hnews : ∀ post ∈ news, post.node = q ∧ post.mark = .entries ∧ Instruction.ofName? post.lexem.name = some i ∧
      ∀ π ∈ post.lexem.spots i, π ∈ newPlaces)
    (hspots : ∀ π ∈ newPlaces, ∃ post ∈ news, π ∈ post.lexem.spots i)
    (holdNew : q = p → ∀ π ∈ oldPlaces, ¬ h₀.Bears p (.entry π)) (hnew : q = p → ∀ π ∈ newPlaces, ¬ h₀.Bears p (.entry π))
    (hstrokes : Host.Strokes q (oldPlaces ++ newPlaces) σ.host h)
    (hleft : ∀ π ∈ oldPlaces, π ∉ newPlaces → (h.content q).held π = none) :
    Accounted U (σ.onHost fun _ => h) (left ++ (news ++ right)) := by
  have hexchanges : Host.Exchanges p h₀ (fun t => q = p ∧ ∃ π ∈ oldPlaces, π ∉ newPlaces ∧ t = .entry π)
      (fun t => q = p ∧ ∃ π ∈ newPlaces, t = .entry π) (fun _ _ => False) σ.host h := by
    refine .strokes hstrokes (fun hq π hπ => ?_) ?_ fun n hn => by simp at hn
    · by_cases hmem : π ∈ newPlaces
      · exact .inr ⟨hq, π, hmem, rfl⟩
      · exact .inl ⟨hq, π, (List.mem_append.mp hπ).resolve_right hmem, hmem, rfl⟩
    · rintro t ⟨rfl, π, hold, hout, rfl⟩ -
      exact .of_not_bears (holdNew rfl π hold) fun hbears => hbears (hleft π hold hout)
  have hmark : ∀ {post : Post}, post.mark = .entries → elementsOf [post] = [] := by
    intro post hmark
    simp [elementsOf, Post.element?, hmark]
  refine exchange olds news hknows haccounted hexchanges id ?_ ?_ (by simp) ?_ ?_ ?_ ?_
  · rintro t (⟨-, π, -, -, rfl⟩ | ⟨-, π, -, rfl⟩) - <;> exact ⟨π, rfl⟩
  · rintro t ⟨hq, π, hπ, rfl⟩
    obtain ⟨post, hpost, hspot⟩ := hspots π hπ
    obtain ⟨hnode, hentries, hword, -⟩ := hnews post hpost
    exact ⟨post, hpost, .inl ⟨hnode.trans hq, hentries, i, hword, hspot⟩⟩
  · intro post hpost t howns
    obtain ⟨hnode, hentries, hword, hall⟩ := holds post hpost
    rcases howns with ⟨hq, hputs⟩ | ⟨m, hook, hhook, -⟩
    · cases t with
      | entry π =>
          obtain ⟨-, j, hj, hπ⟩ := hputs
          rw [hword] at hj
          cases hj
          by_cases hmem : π ∈ newPlaces
          · obtain ⟨other, hother, hspot⟩ := hspots π hmem
            obtain ⟨hnode', hentries', hword', -⟩ := hnews other hother
            exact .inr ⟨other, hother, .inl ⟨hnode'.trans (hnode.symm.trans hq), hentries', i, hword', hspot⟩⟩
          · exact .inl ⟨hnode.symm.trans hq, π, hall π hπ, hmem, rfl⟩
      | child m =>
          rw [Post.puts, hentries] at hputs
          cases hputs
      | listener entry =>
          rw [Post.puts, hentries] at hputs
          cases hputs
    · rw [hentries] at hhook
      cases hhook
  · intro post hpost m hm
    rw [(holds post hpost).2.1] at hm
    cases hm
  · intro m hm
    obtain ⟨post, hpost, hown⟩ := mem_elementsOf.mp hm
    rw [(hnews post hpost).2.1] at hown
    cases hown
  · intro post hpost
    obtain ⟨hnode, hentries, hword, hall⟩ := hnews post hpost
    refine ⟨fun m hm => ?_, fun hp π hputs => ?_, fun id hid => ?_⟩
    · rw [hentries] at hm
      cases hm
    · obtain ⟨-, j, hj, hπ⟩ := hputs
      rw [hword] at hj
      cases hj
      exact hnew (hnode.symm.trans hp) π (hall π hπ)
    · rw [hentries] at hid
      cases hid

/-- The posts of a word that listens are exchanged for one another. -/
theorem listens (olds news : List Post) (q : NodeId) (id : ListenerId) (haccounted : Accounted U σ (left ++ (olds ++ right)))
    (holds : ∀ post ∈ olds, post.node = q ∧ post.mark = .listener id)
    (hnews : ∀ post ∈ news, post.node = q ∧ post.mark = .listener id) (hid : h₀.listeners.size < id.number)
    (hsizes : σ.host.listeners.size ≤ h.listeners.size) (hcount : h.count = σ.host.count)
    (hparent : ∀ n, h.parent n = σ.host.parent n)
    (halters : σ.host.Alters p h₀.listeners.size (fun t => q = p ∧ ∃ event, t = .listener (id, event)) h)
    (hleft : news = [] → ∀ event, (id, event) ∉ h.bound q) :
    Accounted U (σ.onHost fun _ => h) (left ++ (news ++ right)) := by
  have hlate : ∀ event, ¬ h₀.Bears p (.listener (id, event)) := fun event hbears => by
    have hfirst := hknows.bound _ hbears
    simp only at hfirst
    omega
  have hmark : ∀ {post : Post}, post.mark = .listener id → post.mark.tops = [] := fun hmark => by rw [hmark]; rfl
  have hnoElement : ∀ n, n ∉ elementsOf news := fun n hn => by
    obtain ⟨post, hpost, hown⟩ := mem_elementsOf.mp hn
    rw [(hnews post hpost).2] at hown
    cases hown
  have hnewLate : ∀ post ∈ news, post.Late p h₀ h := fun post hpost => by
    obtain ⟨-, hown⟩ := hnews post hpost
    refine ⟨fun n hn => ?_, fun _ π hputs => ?_, fun other hother => ?_⟩
    · rw [hmark hown] at hn
      cases hn
    · rw [Post.puts, hown] at hputs
      cases hputs.1
    · rw [hown] at hother
      cases hother
      exact hid
  -- what such a post has put is a trace of its listener
  have hputs : ∀ {post : Post} {t : Trace}, post.node = q ∧ post.mark = .listener id → U.Owns σ.world post t →
      q = p ∧ ∃ event, t = .listener (id, event) := by
    rintro post t ⟨hnode, hown⟩ (⟨hp, hputs⟩ | ⟨m, hook, hhook, -⟩)
    · rw [hnode] at hp
      cases t with
      | listener entry =>
          rw [Post.puts, hown] at hputs
          obtain ⟨entryId, event⟩ := entry
          cases hputs
          exact ⟨hp, event, rfl⟩
      | entry π =>
          rw [Post.puts, hown] at hputs
          cases hputs.1
      | child m =>
          rw [Post.puts, hown] at hputs
          cases hputs
    · rw [hown] at hhook
      cases hhook
  have howns : ∀ {post : Post} {event : String}, post ∈ news → q = p → U.Owns σ.world post (.listener (id, event)) :=
    fun hpost hq => .inl ⟨(hnews _ hpost).1.trans hq, (hnews _ hpost).2⟩
  cases news with
  | nil =>
      have hexchanges : Host.Exchanges p h₀ (fun t => q = p ∧ ∃ event, t = .listener (id, event)) (fun _ => False)
          (fun _ _ => False) σ.host h := by
        refine .links hsizes hcount hparent ?_ ?_ fun n hn => by simp at hn
        · simpa using halters
        · rintro t ⟨rfl, event, rfl⟩ - hbears
          exact absurd hbears (hleft rfl event)
      refine exchange olds [] hknows haccounted hexchanges (fun hleaves => hleaves) ?_ (by simp) (by simp)
        (fun post hpost t hown => .inl (hputs (holds post hpost) hown)) ?_ (fun n hn => absurd hn (hnoElement n)) (by simp)
      · rintro t (⟨-, event, rfl⟩ | ⟨⟨⟩⟩) hbears
        exact absurd hbears (hlate event)
      · intro post hpost n hn
        rw [hmark (holds post hpost).2] at hn
        cases hn
  | cons new news =>
      have hexchanges : Host.Exchanges p h₀ (fun _ => False) (fun t => q = p ∧ ∃ event, t = .listener (id, event))
          (fun _ _ => False) σ.host h :=
        .links hsizes hcount hparent (by simpa using halters) nofun fun _ => False.elim
      refine exchange olds (new :: news) hknows haccounted hexchanges (fun hleaves => hleaves) ?_ ?_ (by simp) ?_ ?_
        (fun n hn => absurd hn (hnoElement n)) hnewLate
      · rintro t (⟨⟨⟩⟩ | ⟨-, event, rfl⟩) hbears
        exact absurd hbears (hlate event)
      · rintro t ⟨hq, event, rfl⟩
        exact ⟨new, List.mem_cons_self, howns List.mem_cons_self hq⟩
      · intro post hpost t hown
        obtain ⟨hq, event, rfl⟩ := hputs (holds post hpost) hown
        exact .inr ⟨new, List.mem_cons_self, howns List.mem_cons_self hq⟩
      · intro post hpost n hn
        rw [hmark (holds post hpost).2] at hn
        cases hn

/-- The posts of a hook are exchanged for one another. -/
theorem hooks (olds news : List Post) (haccounted : Accounted U σ (left ++ (olds ++ right)))
    (hexchanges : Host.Exchanges p h₀ gone come put σ.host h)
    (hworld : ∀ {hook n args t}, U.leaves σ.world hook n args t → U.leaves w hook n args t)
    (hmarks : ∀ post ∈ olds ++ news, ∃ n, post.mark = .hook n)
    (hnew : ∀ t, gone t ∨ come t → h₀.Bears p t → ∃ π, t = .entry π)
    (hgone : ∀ post ∈ olds, ∀ t, U.Owns w post t → gone t) (hcome : ∀ t, come t → ∃ post ∈ news, U.Owns w post t)
    (hput : ∀ q n, put q n → q = p ∧ come (.child n)) :
    Accounted U ((σ.onHost fun _ => h).inWorld w) (left ++ (news ++ right)) := by
  have htops : ∀ post ∈ olds ++ news, post.mark.tops = [] := fun post hpost => by
    obtain ⟨n, hmark⟩ := hmarks post hpost
    rw [hmark]
    rfl
  refine exchange (σ := σ) (h := h) olds news hknows haccounted hexchanges hworld hnew hcome (fun q n hn => ?_)
    (fun post hpost t howns => .inl (hgone post hpost t howns)) (fun post hpost n hn => ?_) (fun n hn => ?_)
    fun post hpost => ?_
  · obtain ⟨hq, hchild⟩ := hput q n hn
    obtain ⟨post, hpost, howns⟩ := hcome _ hchild
    exact ⟨post, hpost, .inr ⟨hq, howns⟩⟩
  · rw [htops post (List.mem_append_left _ hpost)] at hn
    cases hn
  · obtain ⟨post, hpost, hmark⟩ := mem_elementsOf.mp hn
    obtain ⟨m, hhook⟩ := hmarks post (List.mem_append_right _ hpost)
    rw [hmark] at hhook
    cases hhook
  · obtain ⟨m, hhook⟩ := hmarks post (List.mem_append_right _ hpost)
    refine ⟨fun n hn => ?_, fun _ π hputs => ?_, fun id hid => ?_⟩
    · rw [htops post (List.mem_append_right _ hpost)] at hn
      cases hn
    · rw [Post.puts, hhook] at hputs
      cases hputs.1
    · rw [hhook] at hid
      cases hid

/-- A post without nodes is opened or closed. -/
theorem empties (olds news : List Post) (haccounted : Accounted U σ (left ++ (olds ++ right)))
    (hmarks : ∀ post ∈ olds ++ news, post.mark = .nodes []) : Accounted U σ (left ++ (news ++ right)) := by
  have hnothing : ∀ post ∈ olds ++ news, ∀ n, n ∉ post.mark.tops := fun post hpost n hn => by
    rw [hmarks post hpost] at hn
    cases hn
  refine exchange (h := σ.host) (w := σ.world) olds news hknows haccounted (.refl σ.host) (fun hleaves => hleaves) (by simp)
    (by simp) (by simp) (fun post hpost t howns => ?_) (fun post hpost n hn => ?_) (fun n hn => ?_) fun post hpost => ?_
  · have hmark := hmarks post (List.mem_append_left _ hpost)
    rcases howns with ⟨-, hputs⟩ | ⟨m, hook, hhook, -⟩
    · cases t <;> simp [Post.puts, hmark, Mark.tops] at hputs
    · rw [hmark] at hhook
      cases hhook
  · exact absurd hn (hnothing post (List.mem_append_left _ hpost) n)
  · obtain ⟨post, hpost, hmark⟩ := mem_elementsOf.mp hn
    rw [hmarks post (List.mem_append_right _ hpost)] at hmark
    cases hmark
  · have hmark := hmarks post (List.mem_append_right _ hpost)
    refine ⟨fun n hn => absurd hn (hnothing post (List.mem_append_right _ hpost) n), fun _ π hputs => ?_, fun id hid => ?_⟩
    · rw [Post.puts, hmark] at hputs
      cases hputs.1
    · rw [hmark] at hid
      cases hid

/-- Another word stands for the same nodes. -/
theorem renamed {mark : Mark} (haccounted : Accounted U σ (left ++ ⟨q, old, mark⟩ :: right)) (hloose : mark.loose = true) :
    Accounted U σ (left ++ ⟨q, lexem, mark⟩ :: right) := by
  have hentries : mark ≠ .entries := by
    rintro rfl
    cases hloose
  have hlistener : ∀ id, mark ≠ .listener id := by
    rintro id rfl
    cases hloose
  refine exchange (h := σ.host) (w := σ.world) [⟨q, old, mark⟩] [⟨q, lexem, mark⟩] hknows haccounted (.refl σ.host)
    (fun hleaves => hleaves) (by simp) (by simp) (by simp) (fun post hpost t howns => ?_)
    (fun post hpost n hn _ => ?_) (fun n hn => ?_) fun post hpost => ?_
  · rw [List.mem_singleton.mp hpost] at howns
    refine .inr ⟨_, List.mem_singleton_self _, ?_⟩
    rcases howns with ⟨hq, hputs⟩ | ⟨m, hook, rfl, -⟩
    · refine .inl ⟨hq, ?_⟩
      cases t with
      | entry π => exact absurd hputs.1 hentries
      | child n => exact hputs
      | listener entry => exact hputs
    · cases hloose
  · rw [List.mem_singleton.mp hpost] at hn ⊢
    exact .inr ⟨_, List.mem_singleton_self _, rfl, hn⟩
  · refine haccounted.elements n ?_
    rw [elementsOf_append, List.mem_append]
    refine .inr ?_
    rw [← List.singleton_append, elementsOf_append, List.mem_append]
    exact .inl hn
  · rw [List.mem_singleton.mp hpost]
    exact ⟨(haccounted.late ⟨q, old, mark⟩ (by simp)).tops, fun _ π hputs => absurd hputs.1 hentries,
      fun id hid => absurd hid (hlistener id)⟩

end Accounted

/-- What has been put on the node stays accounted for, move by move. -/
theorem Move.accounted (hknows : h₀.Knows p) (hmove : Move (.reversible e h₀ p) b σ posts σ' posts')
    (h : Accounted U σ posts) : Accounted U σ' posts' := by
  have hid : ∀ (post : Post) {id : ListenerId}, post ∈ posts → post.mark = .listener id → h₀.listeners.size < id.number :=
    fun post _ hpost hmark => (h.late post hpost).listener _ hmark
  -- a hook's post has nothing but what the hook left
  have hleaves : ∀ {q n : NodeId} {lexem : Lexem} {hook : Identity} {w : ω} {t : Trace}, lexem.hookArg = .ok hook →
      U.Owns w ⟨q, lexem, .hook n⟩ t → U.leaves w hook n lexem.hookArgs t := by
    rintro q n lexem hook w t hhook (⟨-, hputs⟩ | ⟨m, hook', hmark, hhook', hleaves⟩)
    · cases t with
      | entry π => cases hputs.1
      | child n => cases hputs
      | listener entry => cases hputs
    · cases hmark
      rw [hhook] at hhook'
      cases hhook'
      exact hleaves
  cases hmove with
  | acted hact => exact h.stay hknows (.refl σ.host) (U.acts hact)
  | tabled t => exact ⟨h.count, h.sizes, h.preserves, h.borne, h.lodged, h.elements, h.late⟩
  | renamed hloose => exact h.renamed hknows (hloose.resolve_right (by rintro ⟨⟩))
  | opened =>
      exact Accounted.empties hknows [] [_] h (by simp)
  | closed =>
      exact Accounted.empties hknows [_] [] h (by simp)
  | @put left right q lexem anchor ns ns' h' hq hadds =>
      refine h.nodes hknows (.adds hadds (h.node_lt hknows)) ?_ ?_ ?_ ?_ ?_
      · rintro t (⟨⟨⟩⟩ | ⟨-, rfl⟩)
        exact h.next_new hknows
      · rintro t ⟨hp, rfl⟩
        exact ⟨hp, _, by simp, rfl⟩
      · rintro q' n ⟨rfl, rfl⟩
        exact ⟨rfl, by simp⟩
      · intro n hn hout
        simp only [List.mem_append, List.mem_cons] at hn hout
        tauto
      · intro n hn
        simp only [List.mem_append, List.mem_cons] at hn
        rcases hn with hn | rfl | hn
        · exact (h.late ⟨q, lexem, .nodes (ns ++ ns')⟩ (by simp)).tops n (by simp [Mark.tops, hn])
        · exact h.count
        · exact (h.late ⟨q, lexem, .nodes (ns ++ ns')⟩ (by simp)).tops n (by simp [Mark.tops, hn])
  | @taken left right q lexem ns ns' h' hdrops =>
      have hmade : ∀ n ∈ ns ++ ns', h₀.count ≤ n.index :=
        (h.late ⟨q, lexem, .nodes (ns ++ ns')⟩ (by simp)).tops
      refine h.nodes hknows (.drops hdrops) ?_ (by simp) (by simp) ?_ fun n hn => hmade n (by simp [hn])
      · rintro t (⟨-, n, hn, rfl⟩ | ⟨⟨⟩⟩) hbears
        exact Nat.not_lt.mpr (hmade n (by simp [hn])) (hknows.children n hbears)
      · intro n hn hout
        have hgone : n ∈ ns := (List.mem_append.mp hn).resolve_right hout
        refine ⟨fun hq => ⟨hq, n, hgone, rfl⟩, ?_⟩
        rw [hdrops.parent, if_pos hgone]
        exact (by simp)
  | raised _ hadds => exact h.raised hknows hadds
  | dropped hinner hstill hdrops => exact h.dropped hknows hinner hstill hdrops
  | @worded _ post n value hpost hn =>
      have hne : p ≠ n := by
        rintro rfl
        exact Nat.not_lt.mpr ((h.late post hpost).tops p hn) hknows.node
      have hinscribes : Host.Inscribes n σ.host (σ.host.setText n value) := .entry σ.host n _ _ rfl
      exact h.stay hknows (.links (Nat.le_of_eq (congrArg Array.size hinscribes.links.targets.symm))
        hinscribes.tree.count hinscribes.links.parent (.elsewhere hinscribes hne) (by simp) fun _ => id)
        fun hleaves => hleaves
  | @written left right q lexem e' i ws hq hadmits hspace hword hwrites hallows =>
      obtain rfl := hadmits e rfl
      have hspots := Lexem.spots_eq hwrites
      refine Accounted.entries (i := i) hknows [] [⟨q, lexem, .entries⟩] [] (lexem.spots i) h (by simp) ?_ ?_ (by simp)
        (fun hp => hallows hp hspace i hword) ?_ (by simp)
      · intro post hpost
        rw [List.mem_singleton.mp hpost]
        exact ⟨rfl, rfl, Engine.ofName_of_instruction hword, fun π => id⟩
      · exact fun π hπ => ⟨_, List.mem_singleton_self _, hπ⟩
      · rw [List.nil_append, hspots]
        exact Host.Strokes.foldl (fun w hw _ => .write (List.mem_map_of_mem hw) .refl) σ.host
  | @rewritten left right q lexem old e' i ws f hq hengine hspace hword holdWord hold hrewrite hfollows hallows =>
      obtain rfl := Option.some.inj hengine
      have hplaced : ∀ {word : Lexem} (post : Post), e.instruction? word = some i → post ∈ [⟨q, word, .entries⟩] →
          post.node = q ∧ post.mark = .entries ∧ Instruction.ofName? post.lexem.name = some i ∧
            ∀ π ∈ post.lexem.spots i, π ∈ word.spots i := by
        intro word post hword hpost
        rw [List.mem_singleton.mp hpost]
        exact ⟨rfl, rfl, Engine.ofName_of_instruction hword, fun π => id⟩
      refine Accounted.entries hknows [⟨q, old, .entries⟩] [⟨q, lexem, .entries⟩] (old.spots i) (lexem.spots i) h
        (fun post => hplaced post holdWord)
        (fun post => hplaced post hword) (fun π hπ => ⟨_, List.mem_singleton_self _, hπ⟩) (fun hp π hπ => ?_)
        (fun hp => hallows hp hspace i hword)
        (rewrite_strokes hrewrite (List.subset_append_right _ _) (List.subset_append_left _ _) σ.host)
        fun π hπ hout => rewrite_leaves (Arg.toText_of_same hfollows.2) hrewrite hq hπ hout
      exact (h.late ⟨q, old, .entries⟩ (by simp)).entries hp π ⟨rfl, i, Engine.ofName_of_instruction holdWord, hπ⟩
  | @cleared left right q lexem e' hq hengine hsuits =>
      obtain rfl := Option.some.inj hengine
      cases hsuits with
      | @entries i ws hspace hword hwrites =>
      have hname := Engine.ofName_of_instruction hword
      refine Accounted.entries (i := i) hknows [⟨q, lexem, .entries⟩] [] (lexem.spots i) [] h (fun post hpost => ?_)
        (by simp) (by simp) (fun hp π hπ => ?_) (by simp) ?_
        fun π hπ _ => clear_leaves hq hword hπ
      · rw [List.mem_singleton.mp hpost]
        exact ⟨rfl, rfl, hname, fun π => id⟩
      · exact (h.late ⟨q, lexem, .entries⟩ (by simp)).entries hp π ⟨rfl, i, hname, hπ⟩
      · rw [Lexem.clear_eq, hname, List.append_nil]
        exact Host.Strokes.foldl (fun π hπ _ => .erase hπ .refl) σ.host
  | @bound left right q lexem event listener hq hevent hlistener =>
      refine Accounted.listens hknows [] [⟨q, lexem, .listener _⟩] q (σ.host.addListener q event listener).1 h
        (by simp) (by simp)
        (Nat.lt_succ_of_le h.sizes) ?_ (Host.SameTree.addListener σ.host q event listener).count
        (Host.parent_addListener σ.host event listener)
        (.binds listener hq h.sizes fun hp => ⟨hp, event, rfl⟩) (by simp)
      exact Nat.le_of_lt (by simp [Host.addListener, Host.record, Host.modify])
  | @rebound left right q lexem old id event listener =>
      have hlate : h₀.listeners.size < id.number := hid ⟨q, old, .listener id⟩ (by simp) rfl
      exact Accounted.listens hknows [⟨q, old, .listener id⟩] [⟨q, lexem, .listener id⟩] q id h (by simp)
        (by simp) hlate (by simp [Host.rebind]) (Host.SameTree.rebind σ.host id listener).count (fun _ => rfl)
        (.rebinds σ.host listener (Nat.le_sub_one_of_lt hlate)) (by simp)
  | @unbound left right q lexem id event =>
      refine Accounted.listens hknows [⟨q, lexem, .listener id⟩] [] q id h (by simp) (by simp)
        (hid ⟨q, lexem, .listener id⟩ (by simp) rfl) (Nat.le_refl _)
        (Host.SameTree.removeListener σ.host q event id).count (Host.parent_removeListener σ.host event id)
        (.unbinds σ.host fun hp event => ⟨hp, event, rfl⟩) fun _ event' hmem => ?_
      rw [Host.bound_removeListener, if_pos rfl] at hmem
      simp at hmem
  | @hooked left right q n lexem hook h' w hhook _ hcall =>
      refine Accounted.hooks hknows [] [⟨q, lexem, .hook n⟩] h (U.render hcall) (U.hooks (.render hcall)) (by simp)
        (fun t ht => U.new (ht.resolve_left id)) (by simp) (fun t ht => ?_) fun q n hput => hput
      exact ⟨_, List.mem_singleton_self _, .inr ⟨n, hook, rfl, hhook, ht⟩⟩
  | @rehooked left right q n lexem old hook h' w hhook hold _ hcall =>
      refine Accounted.hooks hknows [⟨q, old, .hook n⟩] [⟨q, lexem, .hook n⟩] h (U.diff hcall) (U.hooks (.diff hcall))
        (by simp) (fun t ht => ht.elim U.new U.new) (fun post hpost t howns => ?_) (fun t ht => ?_) fun q n hput => hput
      · exact hleaves hold (List.mem_singleton.mp hpost ▸ howns)
      · exact ⟨_, List.mem_singleton_self _, .inr ⟨n, hook, rfl, hhook, ht⟩⟩
  | @unhooked left right q n lexem hook h' w hhook _ hcall =>
      refine Accounted.hooks hknows [⟨q, lexem, .hook n⟩] [] h (U.remove hcall) (U.hooks (.remove hcall)) (by simp)
        (fun t ht => U.new (ht.resolve_right id)) (fun post hpost t howns => ?_) (by simp) (by simp)
      exact hleaves hhook (List.mem_singleton.mp hpost ▸ howns)
  | shown hnone => cases hnone
  | forgotten hnone => cases hnone

end Moves

end Parlance
