import Parlance.Proofs.Engine.Hollow
import Parlance.Proofs.Engine.InPlace
import Parlance.Proofs.Schedule.Forestry

/-! Updates that are refused. A component that is shown again forgets its output while that is diffed, and if the new
sentence has another length it is refused before anything has been done. The host is as it was, but the output is not
given back: the component is not mounted any more, and a removal leaves all that its output has put on the host, and the
components in it, as they are. -/

namespace Parlance

open Pass

variable {ω σ : Type} {b : Behaviour ω} {stage stage' : Stage ω} {id : InstanceId} {i : Instance}
variable {r previous : Rendered} {s : Sentence} {w : ω} {os before after : Outputs} {cs : List InstanceId}
    {posts : List Post}

section Sequences

variable {α β : Type} {m : Pass ω α} {f : α → Pass ω β}

theorem Pass.bind_ok {x : α} (h : m stage = .ok x stage') : (m >>= f) stage = f x stage' := by
  change EStateM.bind m f stage = _
  rw [EStateM.bind, h]

theorem Pass.bind_error {err : Halt PassError} (h : m stage = .error err stage') :
    (m >>= f) stage = .error err stage' := by
  change EStateM.bind m f stage = _
  rw [EStateM.bind, h]

end Sequences

namespace Stage

/-- What a refused update leaves. -/
def refused (stage : Stage ω) (id : InstanceId) (w : ω) : Stage ω := (stage.onInstance id Instance.lost).inWorld w

/-- The same, with a hollow output for the one that is lost. -/
def hollowed (stage : Stage ω) (id : InstanceId) (w : ω) : Stage ω := (stage.onInstance id Instance.hollow).inWorld w

theorem refused_refills (stage : Stage ω) (id : InstanceId) (w : ω) :
    (stage.refused id w).Refills id (stage.hollowed id w) :=
  ⟨rfl, rfl, .lost stage.instances id⟩

end Stage

namespace Engine

/-- A sentence of another length is refused before anything is done. -/
theorem diff_refused {e : Engine} {c : Cursor} (depth : Nat) (hlength : s.length ≠ previous.sentence.length) :
    diffWithin b (depth + 1) e c (.new s) previous stage =
      .error (.error (.lengthMismatch previous.sentence.length s.length)) stage := by
  have hreuses : e.reuses (.new s) previous = false := by simp [reuses, Phrase.new]
  rw [diffWithin, diffPhrase, hreuses, if_neg (by simp),
    if_pos (show (Phrase.new s).sentence.length ≠ previous.sentence.length from hlength)]
  rfl

/-- An update that is refused is an error, after which the component has lost its output. -/
theorem update_refused (hpresent : stage.instances[id.index]? = some i) (hdeveloped : i.developed = some previous)
    (hview : b.view id stage.world = .ok s w) (hlength : s.length ≠ previous.sentence.length) :
    updateComponent b id stage =
      .error (.error (.lengthMismatch previous.sentence.length s.length)) (stage.refused id w) := by
  have hlost : editInstance id (fun i => { i with developed := none }) stage = .ok () (stage.onInstance id Instance.lost) :=
    editInstance_eq_ok.mpr rfl
  have hact : act (b.view id) (stage.onInstance id Instance.lost) = .ok s (stage.refused id w) :=
    act_eq_ok.mpr ⟨w, hview, rfl⟩
  rw [updateComponent, update, bind_ok (instances_eq_ok.mpr ⟨rfl, rfl⟩), hpresent]
  dsimp only
  rw [hdeveloped]
  dsimp only
  rw [bind_ok hlost, bind_ok hact]
  exact bind_error (diff_refused 9999 hlength)

/-- A component that has lost its output is not shown again, whatever its view is. -/
theorem update_lost (hpresent : stage.instances[id.index]? = some i) (hlost : i.developed = none) :
    updateComponent b id stage = .error (.error (.notMounted i.factory.typeName)) stage := by
  rw [updateComponent, update, bind_ok (instances_eq_ok.mpr ⟨rfl, rfl⟩), hpresent]
  dsimp only
  rw [hlost]
  rfl

end Engine

theorem Stage.refused_own (hpresent : stage.instances[id.index]? = some i) :
    (stage.refused id w).instances[id.index]? = some i.lost := by
  change (stage.instances.modify id.index Instance.lost)[id.index]? = _
  rw [Array.getElem?_modify, if_pos rfl, hpresent, Option.map_some]

theorem Stage.hollowed_own (hpresent : stage.instances[id.index]? = some i) :
    (stage.hollowed id w).instances[id.index]? = some i.hollow := by
  change (stage.instances.modify id.index Instance.hollow)[id.index]? = _
  rw [Array.getElem?_modify, if_pos rfl, hpresent, Option.map_some]

section Lost

variable (hpresent : stage.instances[id.index]? = some i) (hdeveloped : i.developed = some previous)
include hpresent hdeveloped

/-- The output that a component has lost is like one that nobody holds: it stands beside the others, which are kept, and
the component holds nothing. -/
theorem Retained.refused (h : Retained .loose os stage cs posts) (hid : id ∈ cs) (w : ω) : ∃ cs' posts',
    Retained .loose (os ++ [(i.parent, previous)]) (stage.hollowed id w) cs' posts' ∧
      (linksOf posts).Perm (linksOf posts') := by
  obtain ⟨ids, own, ids', rfl, hown, hreplace⟩ := h.holds.zoom hid
  obtain ⟨q, lexem, outer, own₁, outer', left, mid, right, hcs, rfl, -, hown₁, hmid, hposted⟩ :=
    h.posted.zoom h.holds hid
  obtain rfl := hown.unique hown₁
  obtain ⟨i₁, r₁, inner, rfl, hpresent₁, hdeveloped₁, hpaired, hlater, hinner⟩ := hown.of_component
  cases hpresent.symm.trans hpresent₁
  cases hdeveloped.symm.trans hdeveloped₁
  obtain ⟨lost, witness, rfl, rfl, -, hwitness, -, hlost⟩ := hmid.of_component hpresent hdeveloped
  -- all that stands elsewhere, and what is in the lost output, is as it was
  have hself : (stage.hollowed id w).instances[id.index]? = some i.hollow := Stage.hollowed_own hpresent
  have hagree : ∀ x, x ≠ id → Agree stage.instances (stage.hollowed id w).instances x := fun x hx =>
    agree_modify stage.instances Instance.hollow hx
  have hothers : ∀ x ∈ ids ++ ids', x ≠ id := fun x hx heq => not_mem_between h.nodup x hx (by simp [heq])
  have hothers' : ∀ x ∈ outer ++ outer', x ≠ id := fun x hx heq =>
    not_mem_between (hcs ▸ h.nodup) x hx (by simp [heq])
  have hnested : ∀ x ∈ inner, Agree stage.instances (stage.hollowed id w).instances x := fun x hx =>
    hagree x fun heq => Nat.lt_irrefl _ (heq ▸ hlater x hx)
  have hholds : Holds (stage.hollowed id w).instances os.slots (ids ++ [id] ++ ids') :=
    hreplace _ [id] (.component hself rfl rfl (by simp) .nil .nil) (fun x hx => hagree x (hothers x hx)) (by simp)
  have hcensus : Census .loose (stage.hollowed id w).instances i.parent [lexem] [.component id]
      [⟨i.parent, lexem, .nodes [witness]⟩] :=
    .component hself rfl (fun _ he => by cases he) hwitness rfl (fun _ he => by cases he) .nil .nil
  have hposted' := hposted _ _ hcensus fun x hx => hagree x (hothers' x hx)
  refine ⟨ids ++ [id] ++ ids' ++ inner, left ++ [⟨i.parent, lexem, .nodes [witness]⟩] ++ right ++ (lost ++ []),
    ⟨fun o ho => ?_, ?_, ?_, hposted'.append (.cons (hlost.congr hinner hnested) .nil)⟩, ?_⟩
  · rcases List.mem_append.mp ho with ho | ho
    · exact h.paired o ho
    · rw [List.mem_singleton.mp ho]
      exact hpaired
  · have hslots : Outputs.slots (os ++ [(i.parent, previous)]) = os.slots ++ previous.slots := by
      simp [Outputs.slots]
    rw [hslots]
    exact hholds.append (hinner.congr hnested)
  · refine (List.Perm.nodup_iff (List.perm_iff_count.mpr fun x => ?_)).mp h.nodup
    simp only [List.count_append]
    omega
  · refine List.perm_iff_count.mpr fun link => ?_
    simp only [linksOf_append, List.count_append, List.append_nil]
    omega

/-- The output of a component that is held stands where it was put. -/
theorem Retained.output_intact (h : Retained .loose os stage cs posts) (hattached : Attached stage.host (linksOf posts))
    (hid : id ∈ cs) : Intact stage i.parent previous.sentence.lexems previous.slots := by
  obtain ⟨q, lexem, outer, own, outer', left, mid, right, rfl, rfl, -, hown, hmid, -⟩ := h.posted.zoom h.holds hid
  rw [linksOf_append, linksOf_append] at hattached
  have hintact : Intact stage q [lexem] [.component id] :=
    ⟨own, mid, hown, h.nodup.sublist (by simp), hmid, hattached.left.right⟩
  obtain ⟨rfl, -⟩ := hintact.output hpresent hdeveloped
  exact hintact.developed hpresent hdeveloped

end Lost

/-- What stands in an output is where it was put as long as the output is kept, on whatever table it is looked at that
has its components. -/
theorem Intact.on {t : Array Instance} {p : NodeId} {lexems : List Lexem} {slots : List Slot} {w : ω}
    (h : Intact stage p lexems slots) (hholds : Holds t slots cs) (hagree : ∀ x ∈ cs, Agree t stage.instances x) :
    Intact ⟨stage.host, t, w⟩ p lexems slots := by
  obtain ⟨cs', posts, hholds', hnodup, hcensus, hattached⟩ := h
  obtain rfl := hholds'.unique (hholds.congr hagree)
  exact ⟨_, posts, hholds, hnodup, hcensus.congr hholds' fun x hx => Eq.symm (hagree x hx), hattached⟩

theorem Unhooking.on (h : Unhooking b stage stage') (t : Array Instance) :
    Unhooking b ⟨stage.host, t, stage.world⟩ ⟨stage'.host, t, stage'.world⟩ := by
  induction h with
  | refl => exact .refl
  | step hcall _ ih => exact .step hcall ih

/-- A removal after a refusal leaves what is in the lost output: all nodes stay where they were, and no component in it
is told anything or loses its own output. -/
theorem Retained.stranded (hquiet : b.Quiet) {p : NodeId} (h : Retained .loose (before ++ (p, r) :: after) stage cs posts)
    (hattached : Attached stage.host (linksOf posts)) (hp : p.index < stage.host.count) (hid : id ∈ cs)
    (hpresent : stage.instances[id.index]? = some i) (hdeveloped : i.developed = some previous)
    (hpass : Engine.remove b p r (stage.refused id w) = .ok () stage') :
    Intact ⟨stage'.host, stage.instances, w⟩ i.parent previous.sentence.lexems previous.slots ∧
      ∃ found stage₁ w₁, Unhooking b (stage.refused id w) stage₁ ∧ Told b .willUnmount found stage₁.world w₁ ∧
        Told b .didUnmount found w₁ stage'.world ∧ ∀ child, Reachable stage.instances previous.slots child →
          child ∉ found ∧ Agree stage.instances stage'.instances child := by
  obtain ⟨-, own, -, -, hown, -⟩ := h.holds.zoom hid
  obtain ⟨i₁, r₁, inner, rfl, hpresent₁, hdeveloped₁, -, hlater, hinner⟩ := hown.of_component
  cases hpresent.symm.trans hpresent₁
  cases hdeveloped.symm.trans hdeveloped₁
  obtain ⟨cs', posts', hrefused, hlinks⟩ := h.refused hpresent hdeveloped hid w
  rw [List.append_assoc, List.cons_append] at hrefused
  obtain ⟨τ, hpass', hτ⟩ := teardown_refilled hpass (stage.refused_refills id w)
  -- the components of the output that is removed are not those of the lost one
  have hholds := hrefused.holds
  simp only [Outputs.slots, List.map_append, List.map_cons, List.map_nil, slotsOf_append, slotsOf_cons, slotsOf_nil,
    List.append_nil] at hholds
  obtain ⟨ids, _, rfl, -, hholds⟩ := hholds.split
  obtain ⟨found, _, rfl, hfound, hholds⟩ := hholds.split
  obtain ⟨ids', inner', rfl, -, hlost⟩ := hholds.split
  have hagree : ∀ x ∈ inner, Agree stage.instances (stage.hollowed id w).instances x := fun x hx =>
    agree_modify stage.instances Instance.hollow fun heq => Nat.lt_irrefl _ (heq ▸ hlater x hx)
  obtain rfl := hlost.unique (hinner.congr hagree)
  have hapart : ∀ x ∈ inner', x ∉ found := fun x hx hmem => by
    have hnodup : (found ++ inner').Nodup := hrefused.nodup.sublist (by simp)
    exact (List.nodup_append.mp hnodup).2.2 x hmem x hx rfl
  obtain ⟨stage₁, w₁, w₂, hunhooking, hwill, hdid, rfl⟩ := teardown_ok (hrefused.paired (p, r) (by simp)) hfound hpass'
  have hagree' : ∀ x ∈ inner', Agree stage.instances (unmountAll (stage.hollowed id w).instances found) x := fun x hx =>
    (hagree x hx).trans (agree_unmountAll _ (hapart x hx))
  -- and the lost output stays as it stands beside the others
  obtain ⟨cs₁, posts₁, hcarries, -⟩ := hrefused.remove hpass'
  have hattached' : Attached (stage.hollowed id w).host (linksOf posts') := hattached.perm hlinks
  have hparents : ∀ q ∈ [p], q.index < (stage.hollowed id w).host.count := fun q hq => List.mem_singleton.mp hq ▸ hp
  obtain ⟨-, hattached₁⟩ := hcarries.attached (R := ⟨0, False, False⟩) hquiet (fun hinside => hinside) (Nat.zero_le _)
    hattached' hparents
  have hretained₁ := hcarries.retained
  rw [← List.append_assoc] at hretained₁
  obtain ⟨-, hintact⟩ := hretained₁.intact hattached₁
  refine ⟨?_, found, _, w₁, hunhooking.on (stage.refused id w).instances, hwill, ?_, fun child hchild => ?_⟩
  · rw [← hτ.host]
    exact hintact.on hinner hagree'
  · rw [← hτ.world]
    exact hdid
  · have hmem : child ∈ inner' := hinner.mem_iff_reachable.mpr hchild
    refine ⟨hapart child hmem, (hagree' child hmem).trans ?_⟩
    have hne : child.index ≠ id.index := fun heq => Nat.lt_irrefl _ (heq ▸ hlater child hmem)
    rw [Agree, ← hτ.table.others child.index hne]

namespace Desk

variable {start : Stage ω} {d : Desk ω σ}

/-- An update that is refused leaves the host, but the component has lost its output. It is not shown again, whatever its
view is. If any of the outputs is removed then, all nodes of the lost output stay where they were, and the components in
it are not told that they are unmounted and keep their own outputs. -/
theorem refusal_strands (hquiet : b.Quiet) (hforest : start.host.Forest) (hempty : start.instances = #[])
    (hrun : Session b start False d) (hpresent : d.stage.instances[id.index]? = some i)
    (hdeveloped : i.developed = some previous) (hview : b.view id d.stage.world = .ok s w)
    (hlength : s.length ≠ previous.sentence.length) :
    Engine.updateComponent b id d.stage =
        .error (.error (.lengthMismatch previous.sentence.length s.length)) (d.stage.refused id w) ∧
      (∀ again : Stage ω, again.instances = (d.stage.refused id w).instances →
        Engine.updateComponent b id again = .error (.error (.notMounted i.factory.typeName)) again) ∧
      ∀ p r, (p, r) ∈ d.all → (∀ err after, Engine.remove b p r (d.stage.refused id w) ≠ .error (.error err) after) ∧
        ∀ after, Engine.remove b p r (d.stage.refused id w) = .ok () after →
          (∀ q slot n, Stands d.stage.instances i.parent previous.slots q slot → n ∈ slot.tops d.stage.instances →
            n ∈ d.stage.host.children q ∧ n ∈ after.host.children q) ∧
          ∃ found stage₁ w₁, Unhooking b (d.stage.refused id w) stage₁ ∧ Told b .willUnmount found stage₁.world w₁ ∧
            Told b .didUnmount found w₁ after.world ∧ ∀ child, Reachable d.stage.instances previous.slots child →
              child ∉ found ∧ Agree d.stage.instances after.instances child := by
  have hupkept := hrun.upkept hquiet hforest hempty
  have hrefused := Engine.update_refused hpresent hdeveloped hview hlength
  refine ⟨hrefused, fun again hagain => ?_, fun p r hmem => ?_⟩
  · have hlost : again.instances[id.index]? = some i.lost := hagain ▸ Stage.refused_own hpresent
    exact Engine.update_lost (i := i.lost) hlost rfl
  obtain ⟨left, right, hall⟩ := List.append_of_mem hmem
  have hupheld : Upheld True ((p, r) :: (left ++ right)) (d.stage.refused id w) := by
    have hfailed : Fails b d ⟨d.stage.refused id w, d.outputs, d.apps⟩ := .update hrefused
    refine (hupkept.fails hquiet hfailed).2.upheld.perm ?_
    exact (List.Perm.of_eq hall).trans List.perm_middle
  refine ⟨fun err after => hupheld.remove_sure hquiet, fun after hpass => ?_⟩
  obtain ⟨os, cs, posts, hos, hretained, hattached, hmounted⟩ := hupkept.upheld.whole not_false
  have hid : id ∈ cs := hmounted id i hpresent (by simp [hdeveloped])
  obtain ⟨before, rest, rfl⟩ := List.append_of_mem (hos.mem_iff.mpr hmem)
  obtain ⟨hintact, htold⟩ :=
    hretained.stranded hquiet hattached (hupkept.upheld.inside _ hmem) hid hpresent hdeveloped hpass
  refine ⟨fun q slot n hstands hn => ⟨?_, ?_⟩, htold⟩
  · have hbefore := hretained.output_intact hpresent hdeveloped hattached hid
    exact (hupkept.upheld.forest.links q n).mpr (hbefore.tops hstands hn)
  · exact ((hupheld.remove hquiet hpass).upheld.forest.links q n).mpr (hintact.tops hstands hn)

end Desk

/-- A component in which another one stands, before some text if there is to be more. -/
def Sentence.nest (more : Bool) : Sentence :=
  .plain (("component", [.component ⟨"Inner", ⟨2⟩⟩, .null]) :: if more then [("text", [.str "more"])] else [])

/-- The first component shows the second one, which shows some text. The world says whether there is to be more, and it
remembers which components have been unmounted. -/
def Behaviour.nest : Behaviour (Bool × List InstanceId) where
  fresh := pure ⟨0⟩
  run _ _ s _ := pure s
  render _ _ _ := pure (.plain [])
  callback _ _ := pure ()
  hookRender _ _ _ h := pure h
  hookDiff _ _ _ _ h := pure h
  hookRemove _ _ _ h := pure h
  create _ _ _ := pure ()
  view id := do
    let w ← get
    pure (if id.index = 0 then .nest w.1 else .plain [("text", [.str "inner"])])
  lifecycle id l :=
    match l with
    | .didUnmount => modify fun w => (w.1, w.2 ++ [id])
    | _ => pure ()

def Sentence.nested : Sentence := .plain [("component", [.component ⟨"Outer", ⟨1⟩⟩, .null])]

/-- The first component shows the second one, and that its text. -/
def Stage.nests (shown : Stage (Bool × List InstanceId)) : Bool :=
  match shown.instances[0]?, shown.instances[1]? with
  | some outer, some inner =>
      match outer.developed, inner.developed with
      | some ⟨_, s, [.component ⟨1⟩]⟩, some ⟨_, _, [.text ⟨1⟩]⟩ =>
          decide (outer.factory.typeName = "Outer") && decide (outer.parent = Host.root) && decide (s.length = 1)
      | _, _ => false
  | _, _ => false

theorem Stage.nests_spec {shown : Stage (Bool × List InstanceId)} (h : shown.nests = true) : ∃ outer inner previous text,
    shown.instances[(⟨0⟩ : InstanceId).index]? = some outer ∧ outer.factory.typeName = "Outer" ∧
    outer.parent = Host.root ∧ outer.developed = some previous ∧ previous.sentence.length = 1 ∧
    previous.slots = [.component ⟨1⟩] ∧ shown.instances[(⟨1⟩ : InstanceId).index]? = some inner ∧
    inner.developed = some text ∧ text.slots = [.text ⟨1⟩] := by
  unfold Stage.nests at h
  split at h
  next outer inner houter hinner =>
    split at h
    next s _ _ hprevious htext =>
      simp only [Bool.and_eq_true, decide_eq_true_eq] at h
      exact ⟨outer, inner, _, _, houter, h.1.1, h.1.2, hprevious, h.2, rfl, hinner, htext, rfl⟩
    next => cases h
  next => cases h

/-- The first component has been refused more text, and is removed. -/
theorem Desk.refusal_strands_nest : ∃ (d : Desk (Bool × List InstanceId) Nat) (r : Rendered) (i : Instance)
    (previous : Rendered) (after : Stage (Bool × List InstanceId)),
    Session Behaviour.nest ⟨.new, #[], (false, [])⟩ False d ∧ (Host.root, r) ∈ d.all ∧
    d.stage.instances[(⟨0⟩ : InstanceId).index]? = some i ∧ i.developed = some previous ∧
    Behaviour.nest.view ⟨0⟩ d.stage.world = .ok (.nest true) (true, []) ∧
    (Sentence.nest true).length ≠ previous.sentence.length ∧
    Engine.remove Behaviour.nest Host.root r (d.stage.refused ⟨0⟩ (true, [])) = .ok () after ∧
    ⟨1⟩ ∈ after.host.children Host.root ∧ ∃ found w₀ w₁, Told Behaviour.nest .willUnmount found w₀ w₁ ∧
      Told Behaviour.nest .didUnmount found w₁ after.world ∧ ⟨1⟩ ∉ found := by
  have hcheck : Pass.check (Engine.plain.render Behaviour.nest Host.root .nested) ⟨.new, #[], (false, [])⟩
      (fun r shown => shown.nests && Pass.check (Engine.remove Behaviour.nest Host.root r) (shown.refused ⟨0⟩ (true, []))
        fun _ _ => true) = true := by decide +kernel
  obtain ⟨r, shown, hrender, hcheck⟩ := exists_of_check hcheck
  rw [Bool.and_eq_true] at hcheck
  obtain ⟨⟨⟩, after, hremove, -⟩ := exists_of_check hcheck.2
  obtain ⟨outer, inner, previous, text, houter, -, hparent, hprevious, hlength, hslots, hinner, htext, htexts⟩ :=
    Stage.nests_spec hcheck.1
  have hquiet : Behaviour.nest.Quiet := by
    rintro h w h' w' (⟨⟨⟩⟩ | ⟨⟨⟩⟩ | ⟨⟨⟩⟩) <;>
      exact ⟨.refl h, fun _ => rfl, [], (List.append_nil _).symm, by simp⟩
  let d : Desk (Bool × List InstanceId) Nat := ⟨⟨shown.host, shown.instances, (true, [])⟩, [(Host.root, r)], []⟩
  have hrun : Desk.Session Behaviour.nest ⟨.new, #[], (false, [])⟩ False d :=
    .outside (.operates .start (.render (by decide) hrender))
      ⟨.refl _, fun _ => rfl, [], (List.append_nil _).symm, by simp⟩ rfl
  have hview : Behaviour.nest.view ⟨0⟩ d.stage.world = .ok (.nest true) (true, []) := rfl
  have hne : (Sentence.nest true).length ≠ previous.sentence.length := by rw [hlength]; decide
  have hmem : (Host.root, r) ∈ d.all := by simp [d, Desk.all]
  have hstands : Stands shown.instances outer.parent previous.slots Host.root (.text ⟨1⟩) := by
    rw [hslots, hparent]
    exact .component List.mem_cons_self hinner htext (.here (by simp [htexts]))
  obtain ⟨-, -, hremoved⟩ := Desk.refusal_strands hquiet Host.forest_new rfl hrun houter hprevious hview hne
  obtain ⟨hnodes, found, stage₁, w₁, -, hwill, hdid, hnested⟩ := (hremoved Host.root r hmem).2 after hremove
  exact ⟨d, r, outer, previous, after, hrun, hmem, houter, hprevious, hview, hne, hremove,
    (hnodes _ _ ⟨1⟩ hstands List.mem_cons_self).2, found, stage₁.world, w₁, hwill, hdid,
    (hnested ⟨1⟩ (.here (by simp [hslots]))).1⟩

/-- The first component has been refused more text. Then it is not shown again as it was before either, and after it has
been removed the text of the second one still stands on the host, and that one has not been unmounted. -/
theorem refused_output_lost : ∃ r shown refused again after,
    Engine.plain.render Behaviour.nest Host.root .nested ⟨.new, #[], (false, [])⟩ = .ok r shown ∧
    Engine.updateComponent Behaviour.nest ⟨0⟩ ⟨shown.host, shown.instances, (true, [])⟩ =
      .error (.error (.lengthMismatch 1 2)) refused ∧
    refused.instances.map Instance.isMounted = #[false, true] ∧
    Engine.updateComponent Behaviour.nest ⟨0⟩ ⟨refused.host, refused.instances, (false, [])⟩ =
      .error (.error (.notMounted "Outer")) again ∧
    Engine.remove Behaviour.nest Host.root r again = .ok () after ∧ after.host.isAttached ⟨1⟩ = true ∧
    after.instances.map Instance.isMounted = #[false, true] ∧ after.world.2 = [⟨0⟩] := by
  have hcheck : Pass.check (Engine.plain.render Behaviour.nest Host.root .nested) ⟨.new, #[], (false, [])⟩
      (fun r shown => shown.nests &&
        decide ((shown.refused ⟨0⟩ (true, [])).instances.map Instance.isMounted = #[false, true]) &&
        Pass.check (Engine.remove Behaviour.nest Host.root r) (shown.refused ⟨0⟩ (false, []))
          fun _ after => after.host.isAttached ⟨1⟩ &&
            (decide (after.instances.map Instance.isMounted = #[false, true]) &&
              decide (after.world.2 = [⟨0⟩]))) = true := by decide +kernel
  obtain ⟨r, shown, hrender, hcheck⟩ := exists_of_check hcheck
  simp only [Bool.and_eq_true, decide_eq_true_eq] at hcheck
  obtain ⟨⟨hnests, hmounted⟩, hcheck⟩ := hcheck
  obtain ⟨⟨⟩, after, hremove, hafter⟩ := exists_of_check hcheck
  simp only [Bool.and_eq_true, decide_eq_true_eq] at hafter
  obtain ⟨outer, inner, previous, text, houter, htype, -, hprevious, hlength, -⟩ := Stage.nests_spec hnests
  have hne : (Sentence.nest true).length ≠ previous.sentence.length := by rw [hlength]; decide
  let asked : Stage (Bool × List InstanceId) := ⟨shown.host, shown.instances, (true, [])⟩
  have hview : Behaviour.nest.view ⟨0⟩ asked.world = .ok (.nest true) (true, []) := rfl
  have hasked : asked.instances[(⟨0⟩ : InstanceId).index]? = some outer := houter
  have hrefused := Engine.update_refused hasked hprevious hview hne
  rw [hlength] at hrefused
  have hlost : (shown.refused ⟨0⟩ (false, [])).instances[(⟨0⟩ : InstanceId).index]? = some outer.lost :=
    Stage.refused_own houter
  have hagain := Engine.update_lost (b := Behaviour.nest) hlost rfl
  rw [show outer.lost.factory.typeName = "Outer" from htype] at hagain
  exact ⟨r, shown, _, _, after, hrender, hrefused, hmounted, hagain, hremove, hafter.1, hafter.2.1, hafter.2.2⟩

end Parlance
