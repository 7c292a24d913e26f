import Parlance.Proofs.Engine.Undoing
import Parlance.Proofs.Host.Attachment

/-! Removing what a run has put under a node. The removal itself goes through if nobody objects to it, and afterwards
the node is as it was before the run: there are no posts left that could account for anything else on it. -/

namespace Parlance

open Pass

variable {ω : Type} {b : Behaviour ω} {e : Engine}

namespace Pass

/-- The pass goes through, whatever stage it starts from. -/
def Returns {α : Type} (m : Pass ω α) : Prop := ∀ σ, ∃ x σ', m σ = .ok x σ'

namespace Returns

variable {α β : Type} {m : Pass ω α}

theorem pure (x : α) : Returns (pure x : Pass ω α) := fun σ => ⟨x, σ, rfl⟩

theorem bind {f : α → Pass ω β} (h : Returns m) (hf : ∀ x, Returns (f x)) : Returns (m >>= f) := fun σ => by
  obtain ⟨x, σ₁, hm⟩ := h σ
  obtain ⟨y, σ', hy⟩ := hf x σ₁
  exact ⟨y, σ', bind_eq_ok.mpr ⟨x, σ₁, hm, hy⟩⟩

theorem instances : Returns (instances : Pass ω (Array Instance)) := fun σ => ⟨_, σ, rfl⟩

theorem forM {f : α → Pass ω PUnit} (hf : ∀ x, Returns (f x)) : ∀ as : List α, Returns (as.forM f)
  | [] => .pure _
  | a :: as => .bind (hf a) fun _ => forM hf as

end Returns

end Pass

/-- Nobody objects to a removal: components that are told of it and hooks that are removed return. -/
structure Behaviour.Releases (b : Behaviour ω) : Prop where
  lifecycle : ∀ id l w, ∃ w', b.lifecycle id l w = .ok () w'
  hookRemove : ∀ hook n args h w, ∃ h' w', b.hookRemove hook n args h w = .ok h' w'

section Releasing

mutual

theorem Slot.seek_returns (hreleases : b.Releases) {within : InstanceId → Pass ω (List InstanceId)}
    (hwithin : ∀ id, Returns (within id)) (lexem : Lexem) : ∀ slot : Slot, Returns (slot.seek b within lexem)
  | .element _ kids => seekAll_returns hreleases hwithin kids
  | .branch _ developed => by
      unfold Slot.seek
      cases developed with
      | none => exact .pure _
      | some r => exact Rendered.seek_returns hreleases hwithin r
  | .each _ items => seekAll_returns hreleases hwithin items
  | .compound r => Rendered.seek_returns hreleases hwithin r
  | .component id => hwithin id
  | .hook n => by
      unfold Slot.seek
      cases lexem.hookArg with
      | error err => exact .pure _
      | ok hook =>
          refine .bind (fun σ => ?_) fun _ => .pure _
          obtain ⟨h', w', hcall⟩ := hreleases.hookRemove hook n lexem.hookArgs σ.host σ.world
          exact ⟨(), _, actOnHost_eq_ok.mpr ⟨h', w', hcall, rfl⟩⟩
  | .skipped | .attribute | .effect | .text _ | .listener _ | .raw _ _ => .pure _

theorem Rendered.seek_returns (hreleases : b.Releases) {within : InstanceId → Pass ω (List InstanceId)}
    (hwithin : ∀ id, Returns (within id)) : ∀ r : Rendered, Returns (r.seekWith b within)
  | ⟨_, sentence, slots⟩ => seekSlots_returns hreleases hwithin sentence.lexems slots

theorem seekSlots_returns (hreleases : b.Releases) {within : InstanceId → Pass ω (List InstanceId)}
    (hwithin : ∀ id, Returns (within id)) (lexems : List Lexem) :
    ∀ slots : List Slot, Returns (seekSlots b within lexems slots)
  | [] => by
      cases lexems <;> exact .pure _
  | slot :: slots => by
      cases lexems with
      | nil => exact .pure _
      | cons lexem lexems =>
          exact .bind (Slot.seek_returns hreleases hwithin lexem slot) fun _ =>
            .bind (seekSlots_returns hreleases hwithin lexems slots) fun _ => .pure _

theorem seekAll_returns (hreleases : b.Releases) {within : InstanceId → Pass ω (List InstanceId)}
    (hwithin : ∀ id, Returns (within id)) : ∀ rs : List Rendered, Returns (seekAll b within rs)
  | [] => .pure _
  | r :: rs => .bind (Rendered.seek_returns hreleases hwithin r) fun _ =>
      .bind (seekAll_returns hreleases hwithin rs) fun _ => .pure _

end

variable (hreleases : b.Releases)
include hreleases

theorem seekComponent_returns : ∀ (depth : Nat) (id : InstanceId), Returns (seekComponent b depth id)
  | 0, _ => .pure _
  | depth + 1, id => by
      unfold seekComponent
      refine .bind .instances fun t => ?_
      cases t[id.index]? with
      | none => exact .pure _
      | some i =>
          cases hdeveloped : i.developed with
          | none => simpa only [hdeveloped] using .bind (.pure _) fun _ => .pure _
          | some r =>
              simpa only [hdeveloped] using
                .bind (Rendered.seek_returns hreleases (seekComponent_returns depth) r) fun _ => .pure _

theorem unmounting_returns (found : List InstanceId) (detach : Array Instance → Host → Host) :
    Returns (unmounting b found detach) := by
  have htell : ∀ (l : Lifecycle) (id : InstanceId), Returns (act (b.lifecycle id l)) := fun l id σ => by
    obtain ⟨w, hcall⟩ := hreleases.lifecycle id l σ.world
    exact ⟨(), _, act_eq_ok.mpr ⟨w, hcall, rfl⟩⟩
  exact .bind (.forM (htell _) found) fun _ => .bind .instances fun t => .bind (fun σ => ⟨(), _, edit_eq_ok.mpr rfl⟩)
    fun _ => .forM (fun id => .bind (htell _ id) fun _ σ => ⟨(), _, editInstance_eq_ok.mpr rfl⟩) found

/-- A removal goes through. -/
theorem remove_returns (p : NodeId) (r : Rendered) : Returns (Engine.remove b p r) :=
  .bind .instances fun t => .bind (Rendered.seek_returns hreleases (seekComponent_returns hreleases t.size) r)
    fun found => unmounting_returns hreleases found _

end Releasing

/-- After any run of passes that write on a node only what was not there before, removing its output leaves the node as
it was before the run, and nothing that was made during the run is attached. The removal goes through if nobody objects
to it. -/
theorem remove_restores {σ₀ σ : Stage ω} {p : NodeId} {r : Rendered} (U : Undoing b σ₀.host p) (hknows : σ₀.host.Knows p)
    (hrun : Run (.reversible e σ₀.host p) b U.Between σ₀ [(p, r)] σ) :
    (b.Releases → ∃ σ', Engine.remove b p r σ = .ok () σ') ∧
    ∀ σ', Engine.remove b p r σ = .ok () σ' →
      σ₀.host.Restores p σ'.host ∧ ∀ n, σ₀.host.count ≤ n.index → σ'.host.isAttached n = false := by
  refine ⟨fun hreleases => ?_, fun σ' hremove => ?_⟩
  · obtain ⟨⟨⟩, σ', hremove⟩ := remove_returns hreleases p r σ
    exact ⟨σ', hremove⟩
  have hstart : Accounted U σ₀ [] := by
    refine ⟨Nat.le_refl _, Nat.le_refl _, .refl σ₀.host, fun t => .inl (.refl t), fun n q hn hq => ?_, nofun, nofun⟩
    rw [Host.parent_of_count_le hn] at hq
    cases hq
  have hmove {σ posts σ' posts'} (hmove : Move (.reversible e σ₀.host p) b σ posts σ' posts')
      (h : Accounted U σ posts) : Accounted U σ' posts' := hmove.accounted hknows h
  have hbetween {σ : Stage ω} {posts : List Post} {h : Host} {w : ω} (hbetween : U.Between σ.host σ.world h w)
      (haccounted : Accounted U σ posts) : Accounted U ⟨h, σ.instances, w⟩ posts := by
    obtain ⟨rfl, hworld⟩ := hbetween
    exact haccounted.stay hknows (.refl σ.host) hworld
  have hcount {h : Host} {w : ω} {h' : Host} {w' : ω} (hbetween : U.Between h w h' w') : h.count ≤ h'.count :=
    Nat.le_of_eq (congrArg Host.count hbetween.1.symm)
  have hall : Run (.reversible e σ₀.host p) b U.Between σ₀ ([] ++ []) σ' := .remove hrun hremove
  obtain ⟨cs, posts, hsustained⟩ := hall.sustained hmove Accounted.elements U.keepsNodes
    (fun lexem => ⟨id, fun i items items' h h' => by simpa [h] using h'⟩) hcount hbetween hstart
  -- nothing is retained any more, so no post accounts for anything
  have hnone : posts = [] := by
    cases hsustained.retained.posted
    rfl
  subst hnone
  have haccounted : Accounted U σ' [] := hsustained.kept
  refine ⟨haccounted.preserves.restores fun t => ?_, fun n hn => ?_⟩
  · simpa using haccounted.borne t
  · exact Host.isAttached_eq_false (fun n => σ₀.host.count ≤ n.index) (Nat.not_le.mpr hknows.root)
      (fun n q hn hq => by simpa using haccounted.lodged n q hn hq) hn

/-- Hooks that keep an attribute on their node for as long as they stand there. -/
def Behaviour.lit : Behaviour Unit :=
  { Behaviour.inert with
    hookRender := fun _ n _ h => pure (h.setAttribute n "lit" "yes")
    hookRemove := fun _ n _ h => pure (h.removeAttribute n "lit") }

/-- They undo what they did on a node that had no such attribute. -/
def Undoing.lit {h₀ : Host} {p : NodeId} (hdark : ¬ h₀.Bears p (.entry (.attribute "lit"))) :
    Undoing Behaviour.lit h₀ p where
  leaves _ _ n _ t := n = p ∧ t = .entry (.attribute "lit")
  new := by
    rintro _ _ _ _ t ⟨-, rfl⟩ -
    exact ⟨_, rfl⟩
  acts _ := id
  hooks _ := id
  render := by
    rintro hook n args h w h' w' ⟨⟩
    have hstrokes : Host.Strokes n [.attribute "lit"] h (h.setAttribute n "lit" "yes") :=
      .write (w := .attribute "lit" "yes") List.mem_cons_self .refl
    exact (Host.Exchanges.strokes hstrokes (fun hn π hπ => .inr ⟨hn, by rw [List.mem_singleton.mp hπ]⟩) nofun
      fun _ => id).putting
  diff := by
    rintro hook n args old h w h' w' ⟨⟩
    refine (Host.Exchanges.links (Nat.le_refl _) rfl (fun _ => rfl) (.refl h) (fun t ht hnot => absurd ht hnot) ?_).putting
    rintro m ⟨-, ⟨⟩⟩
  remove := by
    rintro hook n args h w h' w' ⟨⟩
    have hstrokes : Host.Strokes n [.attribute "lit"] h (h.removeAttribute n "lit") :=
      .erase (π := .attribute "lit") List.mem_cons_self .refl
    refine .strokes hstrokes (fun hn π hπ => .inl ⟨hn, by rw [List.mem_singleton.mp hπ]⟩) ?_ ?_
    · rintro t ⟨rfl, rfl⟩ -
      exact .of_not_bears hdark fun hbears => hbears (Host.held_erase h n (.attribute "lit"))
    · rintro m ⟨-, ⟨⟩⟩

/-- A paragraph and words on the node that it stands under. -/
def Sentence.lamp (i : Identity) (word : String) : Sentence :=
  .plain [("attr", [.str "title", .str word]), ("on", [.str "click", .handler i]), ("onDom", [.hook ⟨5⟩, .str word]),
    ("tag", [.str "p", .sentence i (.plain [("text", [.str word])])])]

/-- Outputs of two lamps, of which the second shines. -/
def Rendered.shone (r r' : Rendered) (h : Host) : Bool :=
  match r.sentence.lexems, r.slots, r'.sentence.lexems, r'.slots with
  | [_, _, _, _], [.attribute, .listener _, .hook _, .element _ [⟨_, ⟨_, _, [_]⟩, [.text _]⟩]],
    [⟨_, _, .str _ :: _⟩, ⟨_, _, .str _ :: _⟩, ⟨_, _, .hook _ :: _⟩, ⟨_, _, .str _ :: _⟩],
    [.attribute, .listener _, .hook _, .element _ [⟨_, ⟨_, _, [⟨_, _, .str _ :: _⟩]⟩, [.text _]⟩]] =>
      decide ((h.content Host.root).held (.attribute "lit") = some (.str "yes"))
  | _, _, _, _ => false

/-- A lamp is put up, changed and taken down. -/
theorem remove_restores_lamp : ∃ r σ₁ r' σ₂ σ₃,
    Engine.plain.render Behaviour.lit Host.root (.lamp ⟨1⟩ "on") ⟨.new, #[], ()⟩ = .ok r σ₁ ∧
    Engine.plain.diff Behaviour.lit Host.root (.lamp ⟨2⟩ "off") r σ₁ = .ok r' σ₂ ∧
    (σ₂.host.content Host.root).held (.attribute "lit") = some (.str "yes") ∧
    Engine.remove Behaviour.lit Host.root r' σ₂ = .ok () σ₃ ∧
    Host.new.Restores Host.root σ₃.host ∧ ∀ n, Host.new.count ≤ n.index → σ₃.host.isAttached n = false := by
  have hcheck : Pass.check (Engine.plain.render Behaviour.lit Host.root (.lamp ⟨1⟩ "on")) ⟨.new, #[], ()⟩
      (fun r σ₁ => Pass.check (Engine.plain.diff Behaviour.lit Host.root (.lamp ⟨2⟩ "off") r) σ₁ fun r' σ₂ =>
        r.shone r' σ₂.host) = true := by rfl
  obtain ⟨r, σ₁, hrender, hcheck⟩ := exists_of_check hcheck
  obtain ⟨r', σ₂, hdiff, hcheck⟩ := exists_of_check hcheck
  unfold Rendered.shone at hcheck
  split at hcheck
  next hwords hslots hwords' hslots' =>
    have hdark : ∀ π, ¬ Host.new.Bears Host.root (.entry π) := fun π hbears => hbears (Content.held_new _ π)
    let start : Stage Unit := ⟨.new, #[], ()⟩
    let U : Undoing Behaviour.lit start.host Host.root := .lit (hdark _)
    have hknows : Host.new.Knows Host.root := ⟨by decide, by decide, (fun _ h => by cases h), (fun _ h => by cases h)⟩
    have hadmits : (Regime.reversible .plain .new Host.root).Admits .plain := fun _ => Option.some.inj
    have hfirst : Run (.reversible .plain start.host Host.root) Behaviour.lit U.Between start
        ([] ++ (Host.root, r) :: []) σ₁ :=
      .render .start hadmits hknows.root hrender fun _ _ _ _ _ _ π _ => hdark π
    have hrun : Run (.reversible .plain start.host Host.root) Behaviour.lit U.Between start
        ([] ++ (Host.root, r') :: []) σ₂ := by
      refine .diff hfirst hadmits hdiff ?_ fun _ _ _ _ _ _ π _ => hdark π
      rintro e ⟨⟩
      rw [hwords, hslots, hwords', hslots']
      have hpart : ∀ {space name : String} {a : Arg} {args : List Arg} {old : Lexem}, (∀ i items, a ≠ .list i items) →
          (Regime.reversible .plain .new Host.root).follows ⟨space, name, a :: args⟩ old := fun hno =>
        ⟨(by simp), fun i items _ hlist => absurd hlist (hno i items)⟩
      refine .cons (hpart (by simp)) (fun _ => .gone) ?_ (.cons (hpart (by simp)) (fun _ => .gone) ?_
        (.cons (hpart (by simp)) (fun _ => .gone) ?_
          (.cons (hpart (by simp)) (fun _ => .cons (hpart (by simp)) (fun _ => .gone) ?_
          .gone) ?_ .gone))) <;> rintro _ _ _ _ _ ⟨⟩
    obtain ⟨hreturns, hrestores⟩ := remove_restores U hknows hrun
    obtain ⟨σ₃, hremove⟩ := hreturns ⟨fun _ _ _ => ⟨_, rfl⟩, fun _ _ _ _ _ => ⟨_, _, rfl⟩⟩
    exact ⟨r, σ₁, r', σ₂, σ₃, hrender, hdiff, of_decide_eq_true hcheck, hremove, hrestores σ₃ hremove⟩
  next => cases hcheck

end Parlance
