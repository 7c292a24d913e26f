import Mathlib.Data.List.Nodup
import Parlance.Proofs.Engine.DiffStep
import Parlance.Proofs.Host.Entries
import Parlance.Proofs.Html.Vocabulary
import Parlance.Host.Tree
import Parlance.Script.Behaviour
import Parlance.Script.Setup

/-! What becomes of the children of a tag word. The word develops into a single `tag` that packs the arguments
into a list, and texts among them become text nodes. A diff goes through the two lists side by side: it
rewrites the texts that both have, renders those that only the new list has, and tears down the rest. The
markup is then that of a fresh render, as long as the diff is made at all: a word without arguments is passed
over before it is compared with the old one, so the children of that stay where they are. -/

namespace Parlance

namespace Html

variable {tag : String}

/-- A sentence of one tag word with texts for children. -/
def tagged (tag : String) (texts : List String) : Sentence :=
  (Sentence.empty lexicon .firstLevel).append space tag (texts.map .str)

/-- What a tag word develops into: a `tag` with its children in a list. -/
def packed (tag : String) (list : Identity) (texts : List String) : Sentence :=
  (Sentence.empty lexicon .firstLevel).append space "tag" [.str tag, .list list (texts.map .str)]

/-- What a text among the children stands for. -/
def worded (text : String) : Sentence := (Sentence.empty lexicon .firstLevel).append space "text" [.str text]

theorem build_tagBody (ctx : Context) (i : Interpreter World) (tag : String) (args : List Arg) (world : World) :
    Script.build ctx i ⟨⟨lexicon, .firstLevel⟩, [], args⟩ (Sentence.empty lexicon .firstLevel) (tagBody tag).calls
        world =
      .ok ((Sentence.empty lexicon .firstLevel).append space "tag" [.str tag, .list ⟨world.cells.size⟩ args])
        { world with cells := world.cells.push .bare } := by
  have htag : "tag" ∈ atoms := by decide
  have hcall : ∀ args, (Sentence.empty lexicon .firstLevel).tryCall i "tag" args =
      pure ((Sentence.empty lexicon .firstLevel).append space "tag" args) := tryCall_atom i rfl htag
  simp only [tagBody, body, Script.build, Script.call, Script.evalArgs, Script.eval, Script.newList, pure_bind,
    bind_pure, List.drop_zero, List.append_nil, hcall]
  rfl

theorem develop_tagged (ctx : Context) (htag : tag ∈ tags) (texts : List String) (world : World) :
    ∃ list world', lexicon.develop (Script.interpreter ctx) ⟨space, tag, texts.map .str⟩ world =
      .ok (packed tag list texts) world' := by
  have hrun : ∀ init s args, (Script.interpreter ctx).run (tagBody tag) init s args = Script.closed
      (Script.build ctx (Script.interpreterWithin ctx 9999) ⟨init, [], args⟩ s (tagBody tag).calls) := fun _ _ _ => rfl
  refine ⟨⟨world.cells.size⟩, { world with cells := world.cells.push .bare }, ?_⟩
  rw [Lexicon.develop, Lexicon.expand, resolve_tag htag]
  dsimp only
  rw [hrun, Attempt.ofAct, Script.closed, Attempt.orBreakOff, build_tagBody]
  rfl

end Html

/-- A text node with its text. -/
abbrev Wording := NodeId × String

namespace Host

variable {h : Host} {tag text : String} {element n : NodeId} {ws ws' : List Wording}

/-- Under the root stands one element, and under the element stand texts. -/
structure Lists (h : Host) (tag : String) (element : NodeId) (ws : List Wording) : Prop where
  bound : ∀ n ∈ root :: element :: ws.map (·.1), n.index < h.count
  distinct : (root :: element :: ws.map (·.1)).Nodup
  top : h.children root = [element]
  children : h.children element = ws.map (·.1)
  leaves : ∀ w ∈ ws, h.children w.1 = []
  named : h.content element = .new (.element tag)
  worded : ∀ w ∈ ws, h.content w.1 = .new (.text w.2)

namespace Lists

theorem fresh (hlists : h.Lists tag element ws) : h.next ∉ root :: element :: ws.map (·.1) := fun hmem =>
  absurd (hlists.bound _ hmem) (Nat.lt_irrefl _)

theorem text_ne (hlists : h.Lists tag element ws) {w : Wording} (hw : w ∈ ws) : w.1 ≠ root ∧ w.1 ≠ element := by
  have hmem : w.1 ∈ ws.map (·.1) := List.mem_map_of_mem hw
  have hdistinct := hlists.distinct
  simp only [List.nodup_cons, List.mem_cons, not_or] at hdistinct
  exact ⟨fun heq => hdistinct.1.2 (heq ▸ hmem), fun heq => hdistinct.2.1 (heq ▸ hmem)⟩

/-- An element under the root of a new host has no texts yet. -/
theorem new (tag : String) : (Host.new.putElement (.root root) tag).Lists tag Host.new.next [] := by
  have hputs : Puts root none Host.new (Host.new.putElement (.root root) tag) :=
    putNode_puts (.element tag) (Nat.zero_lt_one)
  have hmakes : Makes (.element tag) root Host.new (Host.new.putElement (.root root) tag) :=
    putNode_makes Host.new root (.element tag) none _
  have hne : Host.new.next ≠ root := by decide
  refine ⟨?_, by decide, ?_, ?_, by simp, by rw [hmakes.content, if_pos rfl], by simp⟩
  · simp [hputs.count]
    decide
  · rw [hputs.children, if_pos rfl]
    rfl
  · rw [hputs.children, if_neg hne]
    rfl

/-- A new text comes last. -/
theorem put {component : Option InstanceId} (hlists : h.Lists tag element ws) (text : String) :
    (h.putText ⟨element, none, component⟩ text).Lists tag element (ws ++ [(h.next, text)]) := by
  have hputs : Puts element none h (h.putText ⟨element, none, component⟩ text) :=
    putNode_puts (.text text) (hlists.bound element (by simp))
  have hmakes : Makes (.text text) element h (h.putText ⟨element, none, component⟩ text) :=
    putNode_makes h element (.text text) none _
  have hfresh := hlists.fresh
  have hold : ∀ n ∈ root :: element :: ws.map (·.1), n ≠ h.next := fun n hn heq => hfresh (heq ▸ hn)
  have hnodes : root :: element :: (ws ++ [(h.next, text)]).map (·.1) =
      (root :: element :: ws.map (·.1)) ++ [h.next] := by simp
  have hdistinct := hlists.distinct
  have hrest : ∀ w ∈ ws, w.1 ∈ root :: element :: ws.map (·.1) := fun w hw =>
    List.mem_cons_of_mem _ (List.mem_cons_of_mem _ (List.mem_map_of_mem hw))
  refine ⟨?_, ?_, ?_, ?_, ?_, ?_, ?_⟩
  · rw [hnodes, hputs.count]
    intro n hn
    rcases List.mem_append.mp hn with hn | hn
    · exact Nat.lt_succ_of_lt (hlists.bound n hn)
    · rw [List.mem_singleton.mp hn]
      exact Nat.lt_succ_self _
  · rw [hnodes]
    exact List.nodup_append.mpr ⟨hdistinct, List.nodup_singleton _, by simpa using hold⟩
  · have hne : root ≠ element := by
      rintro rfl
      simp at hdistinct
    rw [hputs.children, if_neg hne, hlists.top]
  · rw [hputs.children, if_pos rfl, hlists.children, putBefore, List.map_append, List.map_singleton]
  · intro w hw
    rcases List.mem_append.mp hw with hw | hw
    · rw [hputs.children, if_neg (hlists.text_ne hw).2, hlists.leaves w hw]
    · rw [List.mem_singleton.mp hw, hputs.children, if_neg (hold element (by simp)).symm]
      exact children_of_count_le h (Nat.le_refl _)
  · rw [hmakes.content, if_neg (hold element (by simp)), hlists.named]
  · intro w hw
    rcases List.mem_append.mp hw with hw | hw
    · rw [hmakes.content, if_neg (hold _ (hrest w hw)), hlists.worded w hw]
    · rw [List.mem_singleton.mp hw, hmakes.content, if_pos rfl]

/-- A text is rewritten. -/
theorem reword (hlists : h.Lists tag element (ws ++ (n, text) :: ws')) (text' : String) :
    (h.setText n text').Lists tag element (ws ++ (n, text') :: ws') := by
  have hn : n.index < h.count := hlists.bound n (by simp)
  have hsame : SameTree h (h.setText n text') := .entry h n _ _
  have hcontent : ∀ m, (h.setText n text').content m =
      if m = n then ({ h.content m with kind := .text text' } : Content) else h.content m :=
    content_modifyContent h (fun c => { c with kind := .text text' }) hn
  have hnodes : (ws ++ (n, text') :: ws').map (·.1) = (ws ++ (n, text) :: ws').map (·.1) := by simp
  have hdistinct := hlists.distinct
  refine ⟨?_, hnodes ▸ hdistinct, ?_, ?_, ?_, ?_, ?_⟩
  · rw [hnodes, hsame.count]
    exact hlists.bound
  · rw [hsame.children, hlists.top]
  · rw [hsame.children, hlists.children, hnodes]
  · intro w hw
    have hold : w.1 ∈ (ws ++ (n, text) :: ws').map (·.1) := hnodes ▸ List.mem_map_of_mem hw
    obtain ⟨w', hw', heq⟩ := List.mem_map.mp hold
    rw [hsame.children, ← heq, hlists.leaves w' hw']
  · rw [hcontent, if_neg (hlists.text_ne (w := (n, text)) (by simp)).2.symm, hlists.named]
  · simp only [List.map_append, List.map_cons, List.nodup_cons, List.nodup_middle, List.mem_append,
      not_or] at hdistinct
    have hother : ∀ w, w.1 ≠ n → w ∈ ws ++ (n, text) :: ws' → (h.setText n text').content w.1 = .new (.text w.2) :=
      fun w hne hw => by rw [hcontent, if_neg hne, hlists.worded w hw]
    intro w hw
    rcases List.mem_append.mp hw with hbefore | hfrom
    · refine hother w ?_ (List.mem_append_left _ hbefore)
      rintro rfl
      exact hdistinct.2.2.1.1 (List.mem_map_of_mem hbefore)
    rcases List.mem_cons.mp hfrom with rfl | hafter
    · rw [hcontent, if_pos rfl, hlists.worded (n, text) (by simp)]
      rfl
    · refine hother w ?_ (List.mem_append_right _ (List.mem_cons_of_mem _ hafter))
      rintro rfl
      exact hdistinct.2.2.1.2 (List.mem_map_of_mem hafter)

/-- A text is removed. -/
theorem drop (hlists : h.Lists tag element (ws ++ (n, text) :: ws')) :
    (h.removeChild element n).Lists tag element (ws ++ ws') := by
  have htakes : Takes element [n] h (h.removeChild element n) := .one n h
  have hsame : SameContents h (h.removeChild element n) := .removeChild h element n
  have hkept : List.Sublist (ws ++ ws') (ws ++ (n, text) :: ws') := by simp
  have hnodes : List.Sublist (root :: element :: (ws ++ ws').map (·.1))
      (root :: element :: (ws ++ (n, text) :: ws').map (·.1)) := ((hkept.map _).cons_cons _).cons_cons _
  have hdistinct := hlists.distinct
  refine ⟨fun m hm => htakes.count ▸ hlists.bound m (hnodes.subset hm), hlists.distinct.sublist hnodes,
    ?_, ?_, ?_, ?_, ?_⟩
  all_goals simp only [List.map_append, List.map_cons, List.nodup_cons, List.nodup_middle, List.mem_append,
    List.mem_cons, not_or] at hdistinct
  · rw [htakes.children, if_neg hdistinct.1.1, hlists.top]
  · have hother : ∀ w ∈ ws ++ ws', w.1 ≠ n := by
      rintro w hw rfl
      rcases List.mem_append.mp hw with hw | hw
      · exact hdistinct.2.2.1.1 (List.mem_map_of_mem hw)
      · exact hdistinct.2.2.1.2 (List.mem_map_of_mem hw)
    have hstays : ∀ ws₁ : List Wording, ws₁ ⊆ ws ++ ws' →
        (ws₁.map (·.1)).filter (· ∉ [n]) = ws₁.map (·.1) := fun ws₁ hsub => List.filter_eq_self.mpr fun m hm => by
      obtain ⟨w, hw, rfl⟩ := List.mem_map.mp hm
      simpa using hother w (hsub hw)
    rw [htakes.children, if_pos rfl, hlists.children, List.map_append, List.map_cons, List.filter_append,
      List.filter_cons_of_neg (by simp), hstays ws (by simp), hstays ws' (by simp), List.map_append]
  · intro w hw
    rw [htakes.children, if_neg (hlists.text_ne (hkept.subset hw)).2, hlists.leaves w (hkept.subset hw)]
  · rw [hsame.content, hlists.named]
  · exact fun w hw => by rw [hsame.content, hlists.worded w (hkept.subset hw)]

/-- The markup says no more than the tag and the texts. -/
theorem markup (hlists : h.Lists tag element ws) :
    h.toHtmlWithMarkers root =
      "<" ++ tag ++ ">" ++ String.join ((ws.map (·.2)).map Markup.escape) ++ "</" ++ tag ++ ">" := by
  have hcount : ∃ d, h.nodes.size = d + 2 := by
    have hdistinct := hlists.distinct
    have hroot : root.index < h.count := hlists.bound root (by simp)
    have helement : element.index < h.count := hlists.bound element (by simp)
    have hne : root.index ≠ element.index := fun heq => by
      simp [NodeId.ext_index heq] at hdistinct
    exact ⟨h.count - 2, by rw [count] at *; omega⟩
  obtain ⟨d, hd⟩ := hcount
  have htext : ∀ w ∈ ws, h.treeTo d w.1 = .node (.new (.text w.2)) [] := by
    intro w hw
    cases d <;> simp [treeTo, hlists.leaves w hw, hlists.worded w hw]
  have htexts : ∀ ws₁ : List Wording, ws₁ ⊆ ws →
      Markup.writeAll true (ws₁.map fun w => h.treeTo d w.1) = String.join ((ws₁.map (·.2)).map Markup.escape) := by
    intro ws₁ hsub
    induction ws₁ with
    | nil => rfl
    | cons w ws₁ ih =>
        rw [List.cons_subset] at hsub
        rw [List.map_cons, List.map_cons, List.map_cons, Markup.writeAll, htext w hsub.1, ih hsub.2]
        simp [Markup.write, Content.new]
  have htree : (h.tree root).children = [.node (.new (.element tag)) (ws.map fun w => h.treeTo d w.1)] := by
    rw [Host.tree, hd, treeTo, hlists.top, Tree.children, List.map_singleton, treeTo, hlists.named, hlists.children,
      List.map_map]
    rfl
  rw [toHtmlWithMarkers, htree, Markup.writeAll, Markup.writeAll, Markup.write, htexts ws (List.Subset.refl ws)]
  simp [Content.new, Markup.shown]

end Lists

end Host

/-- What is kept for a text among the children. -/
def Rendered.ofWording (w : Wording) : Rendered := ⟨none, Html.worded w.2, [.text w.1]⟩

/-- Texts that no comparison tells apart are the same. -/
theorem Lexem.argsChanged_str {name : String} {texts olds : List String}
    (h : Lexem.argsChanged ⟨Html.space, name, texts.map .str⟩ ⟨Html.space, name, olds.map .str⟩ = false) :
    texts = olds := by
  simp only [Lexem.argsChanged, Bool.or_eq_false_iff, decide_eq_false_iff_not, Decidable.not_not, List.length_map] at h
  obtain ⟨hlength, hsame⟩ := h
  induction texts generalizing olds with
  | nil => exact (List.length_eq_zero_iff.mp hlength.symm).symm
  | cons text texts ih =>
      cases olds with
      | nil => cases hlength
      | cons old olds =>
          simp only [List.map_cons, List.zip_cons_cons, List.any_cons, Bool.or_eq_false_iff, Arg.same,
            Bool.not_eq_false', decide_eq_true_eq] at hsame
          rw [hsame.1, ih (Nat.succ.inj hlength) hsame.2]

namespace Engine

variable (ctx : Context) {e : Engine} {tag text : String} {element : NodeId} {σ : Stage World} (depth : Nat)

section Target

variable (htarget : e.targets.get? Html.space = some Html.lexicon)
include htarget

theorem isTarget_html : e.isTarget Html.space = true := by
  rw [isTarget, Registry.contains, htarget]
  rfl

/-- An atom of the vocabulary is the instruction of its name. -/
theorem instruction_atom {name : String} (hname : name ∈ Html.atoms) (args : List Arg) :
    e.instruction? ⟨Html.space, name, args⟩ = Instruction.ofName? name := by
  simp only [instruction?, htarget, Html.develops_atom hname]
  rfl

theorem instruction_text (args : List Arg) : e.instruction? ⟨Html.space, "text", args⟩ = some .text :=
  instruction_atom htarget (by decide) args

theorem instruction_tag (args : List Arg) : e.instruction? ⟨Html.space, "tag", args⟩ = some .tag :=
  instruction_atom htarget (by decide) args

theorem instruction_tagged (htag : tag ∈ Html.tags) (args : List Arg) :
    e.instruction? ⟨Html.space, tag, args⟩ = none := by
  have hdevelops : Html.lexicon.develops tag = true := by
    rw [Lexicon.develops, Lexicon.kindOf, Html.resolve_tag htag]
    rfl
  simp only [instruction?, htarget, hdevelops, if_true]

theorem childPhrase_str (name : String) (args : List Arg) (text : String) :
    e.childPhrase ⟨Html.space, name, args⟩ (.str text) = .ok (.new (Html.worded text)) := by
  simp only [childPhrase, Registry.get, htarget]
  rfl

theorem render_worded (c : Cursor) (text : String) (σ : Stage World) :
    renderWithin (Script.behaviour ctx) (depth + 1) e c (.new (Html.worded text)) σ =
      .ok (.ofWording (σ.host.next, text)) (σ.onHost (·.putText c text)) := by
  have hlexem : renderLexem (Script.behaviour ctx) (renderWithin (Script.behaviour ctx) depth e) e c
      ⟨Html.space, "text", [.str text]⟩ σ = .ok (.text σ.host.next) (σ.onHost (·.putText c text)) := by
    rw [renderLexem, if_pos (isTarget_html htarget), instruction_text htarget]
    rfl
  exact renderWithin_single hlexem

/-- A text is rewritten if it is another one. -/
theorem diff_worded (c : Cursor) (text : String) (w : Wording) (σ : Stage World) :
    diffWithin (Script.behaviour ctx) (depth + 1) e c (.new (Html.worded text)) (.ofWording w) σ =
      .ok (.ofWording (w.1, text)) (σ.onHost fun h => if text = w.2 then h else h.setText w.1 text) := by
  have hlexem : diffLexem (Script.behaviour ctx) (renderWithin (Script.behaviour ctx) depth e)
      (diffWithin (Script.behaviour ctx) depth) e c 0 ⟨Html.space, "text", [.str text]⟩
      ⟨Html.space, "text", [.str w.2]⟩ (.text w.1) σ =
        .ok (.text w.1) (σ.onHost fun h => if text = w.2 then h else h.setText w.1 text) := by
    simp only [diffLexem, isTarget_html htarget, instruction_text htarget]
    by_cases htext : text = w.2
    · simp [diffInstruction, Lexem.arg, argAt, Arg.same, htext]
      rfl
    · simp [diffInstruction, Lexem.arg, argAt, Arg.same, htext]
      rfl
  exact diffWithin_single (by simp [Lexem.isCongruent]) hlexem

/-- Texts are rendered after those that stand there already. -/
theorem render_children (component : Option InstanceId) (args : List Arg) {ws : List Wording} (texts : List String)
    (hlists : σ.host.Lists tag element ws) : ∃ new σ',
      (texts.map Arg.str).mapM (m := Pass World) (fun child => do
          renderWithin (Script.behaviour ctx) (depth + 1) e ⟨element, none, component⟩
            (← Pass.ofExcept (e.childPhrase ⟨Html.space, "tag", args⟩ child))) σ = .ok (new.map .ofWording) σ' ∧
      σ'.host.Lists tag element (ws ++ new) ∧ new.map (·.2) = texts := by
  induction texts generalizing ws σ with
  | nil => exact ⟨[], σ, rfl, by rwa [List.append_nil], rfl⟩
  | cons text texts ih =>
      have hput : (σ.onHost (·.putText ⟨element, none, component⟩ text)).host.Lists tag element
        (ws ++ [(σ.host.next, text)]) := hlists.put text
      obtain ⟨new, σ', hrest, hlists', htexts⟩ := ih hput
      refine ⟨(σ.host.next, text) :: new, σ', ?_, by simpa using hlists', by rw [List.map_cons, htexts]⟩
      have hphrase := childPhrase_str htarget "tag" args text
      have hfirst := render_worded ctx depth htarget ⟨element, none, component⟩ text σ
      rw [Pass.mapM_eq_ok] at hrest ⊢
      exact .cons (Pass.bind_eq_ok.mpr ⟨_, σ, Pass.ofExcept_eq_ok.mpr ⟨hphrase, rfl⟩, hfirst⟩) hrest

/-- The texts that both lists have are rewritten, the ones that are new are rendered, and the outputs of the
others are given back. -/
theorem diff_children (component : Option InstanceId) (args : List Arg) {ws olds : List Wording}
    (texts : List String) (hlists : σ.host.Lists tag element (ws ++ olds)) : ∃ new σ',
      diffChildren (renderWithin (Script.behaviour ctx) (depth + 1) e)
          (diffWithin (Script.behaviour ctx) (depth + 1)) e ⟨element, none, component⟩ ⟨Html.space, "tag", args⟩
          (texts.map .str) (olds.map fun w => .str w.2) (olds.map .ofWording) σ =
        .ok (new.map .ofWording, (olds.drop texts.length).map .ofWording) σ' ∧
      σ'.host.Lists tag element (ws ++ new ++ olds.drop texts.length) ∧ new.map (·.2) = texts := by
  induction texts generalizing ws olds σ with
  | nil => exact ⟨[], σ, rfl, by simpa using hlists, rfl⟩
  | cons text texts ih =>
      have hphrase := childPhrase_str htarget "tag" args text
      cases olds with
      | nil =>
          have hput : (σ.onHost (·.putText ⟨element, none, component⟩ text)).host.Lists tag element
              ((ws ++ [(σ.host.next, text)]) ++ []) := by
            simpa using Host.Lists.put (by simpa using hlists) text
          obtain ⟨new, σ', hrest, hlists', htexts⟩ := ih hput
          refine ⟨(σ.host.next, text) :: new, σ', ?_, by simpa using hlists', by rw [List.map_cons, htexts]⟩
          rw [List.drop_nil] at hrest
          refine Pass.bind_eq_ok.mpr ⟨_, σ, Pass.ofExcept_eq_ok.mpr ⟨hphrase, rfl⟩, ?_⟩
          have hfirst := render_worded ctx depth htarget ⟨element, none, component⟩ text σ
          exact Pass.bind_eq_ok.mpr ⟨_, _, hfirst, Pass.bind_eq_ok.mpr ⟨_, _, hrest, rfl⟩⟩
      | cons w olds =>
          by_cases htext : w.2 = text
          · have hpassed : σ.host.Lists tag element (ws ++ [w] ++ olds) := by simpa using hlists
            obtain ⟨new, σ', hrest, hlists', htexts⟩ := ih hpassed
            refine ⟨w :: new, σ', ?_, by simpa using hlists', by rw [List.map_cons, htexts, htext]⟩
            simp only [List.map_cons, diffChildren, List.head?_cons, Option.any_some, Arg.same, htext, decide_true,
              if_true]
            exact Pass.bind_eq_ok.mpr ⟨_, _, rfl, Pass.bind_eq_ok.mpr ⟨_, _, hrest, rfl⟩⟩
          · have hreword : (σ.onHost fun h => if text = w.2 then h else h.setText w.1 text).host.Lists tag element
                (ws ++ [(w.1, text)] ++ olds) := by
              rw [Stage.onHost_host, if_neg (Ne.symm htext), List.append_assoc]
              exact hlists.reword text
            obtain ⟨new, σ', hrest, hlists', htexts⟩ := ih hreword
            refine ⟨(w.1, text) :: new, σ', ?_, by simpa using hlists', by rw [List.map_cons, htexts]⟩
            simp only [List.map_cons, diffChildren, List.head?_cons, Option.any_some, Arg.same, htext, decide_false,
              Bool.false_eq_true, if_false]
            refine Pass.bind_eq_ok.mpr ⟨_, σ, Pass.ofExcept_eq_ok.mpr ⟨hphrase, rfl⟩, ?_⟩
            have hfirst := diff_worded ctx depth htarget ⟨element, none, component⟩ text w σ
            exact Pass.bind_eq_ok.mpr ⟨_, _, hfirst, Pass.bind_eq_ok.mpr ⟨_, _, hrest, rfl⟩⟩

end Target

theorem teardown_worded (w : Wording) :
    Pass.teardown (Script.behaviour ctx) element (.ofWording w) σ = .ok () (σ.onHost (·.removeChild element w.1)) := by
  refine Pass.bind_eq_ok.mpr ⟨σ.instances, σ, rfl, Pass.bind_eq_ok.mpr ⟨[], σ, ?_, rfl⟩⟩
  rfl

theorem teardown_children {ws olds : List Wording} (hlists : σ.host.Lists tag element (ws ++ olds)) :
    ∃ σ', (olds.map Rendered.ofWording).forM (Pass.teardown (Script.behaviour ctx) element) σ = .ok () σ' ∧
      σ'.host.Lists tag element ws := by
  induction olds generalizing σ with
  | nil => exact ⟨σ, rfl, by simpa using hlists⟩
  | cons w olds ih =>
      have hdrop : (σ.onHost (·.removeChild element w.1)).host.Lists tag element (ws ++ olds) := hlists.drop
      obtain ⟨σ', hrest, hlists'⟩ := ih hdrop
      exact ⟨σ', Pass.bind_eq_ok.mpr ⟨(), _, teardown_worded ctx w, hrest⟩, hlists'⟩

/-- What is kept for a tag with texts for children. -/
def packedRendered (tag : String) (list : Identity) (element : NodeId) (ws : List Wording) : Rendered :=
  ⟨none, Html.packed tag list (ws.map (·.2)), [.element element (ws.map .ofWording)]⟩

section Target

variable (htarget : e.targets.get? Html.space = some Html.lexicon)
include htarget

theorem render_packed (tag : String) (list : Identity) (texts : List String) (hhost : σ.host = Host.new) :
    ∃ element ws σ',
      renderWithin (Script.behaviour ctx) (depth + 2) e (.root Host.root) (.new (Html.packed tag list texts)) σ =
        .ok (packedRendered tag list element ws) σ' ∧
      σ'.host.Lists tag element ws ∧ ws.map (·.2) = texts := by
  have hlists : (σ.onHost (·.putElement (.root Host.root) tag)).host.Lists tag Host.new.next [] := by
    rw [Stage.onHost_host, hhost]
    exact Host.Lists.new tag
  obtain ⟨ws, σ', hchildren, hlists', htexts⟩ :=
    render_children ctx depth htarget none [.str tag, .list list (texts.map .str)] texts hlists
  refine ⟨Host.new.next, ws, σ', ?_, hlists', htexts⟩
  have hlexem : renderLexem (Script.behaviour ctx) (renderWithin (Script.behaviour ctx) (depth + 1) e) e
      (.root Host.root) ⟨Html.space, "tag", [.str tag, .list list (texts.map .str)]⟩ σ =
        .ok (.element Host.new.next (ws.map .ofWording)) σ' := by
    simp only [renderLexem, isTarget_html htarget, instruction_tag htarget, if_true]
    have hmake : (Pass.make fun host => (host.next, host.putElement (.root Host.root) tag) : Pass World NodeId) σ =
        .ok Host.new.next (σ.onHost (·.putElement (.root Host.root) tag)) :=
      Pass.make_eq_ok.mpr ⟨by rw [hhost], rfl⟩
    refine Pass.bind_eq_ok.mpr ⟨tag, σ, rfl, Pass.bind_eq_ok.mpr ⟨_, _, hmake, ?_⟩⟩
    exact Pass.bind_eq_ok.mpr ⟨_, _, hchildren, rfl⟩
  rw [packedRendered, htexts]
  exact renderWithin_single hlexem

theorem diff_packed (list list' : Identity) (texts : List String) {ws : List Wording}
    (hlists : σ.host.Lists tag element ws) : ∃ ws' σ',
      diffWithin (Script.behaviour ctx) (depth + 2) e (.root Host.root) (.new (Html.packed tag list' texts))
          (packedRendered tag list element ws) σ = .ok (packedRendered tag list' element ws') σ' ∧
      σ'.host.Lists tag element ws' ∧ ws'.map (·.2) = texts := by
  rw [← List.nil_append ws] at hlists
  obtain ⟨ws', σ₁, hchildren, hlists₁, htexts⟩ :=
    diff_children ctx depth htarget none [.str tag, .list list' (texts.map .str)] texts hlists
  obtain ⟨σ', hteardown, hlists'⟩ := teardown_children ctx hlists₁
  refine ⟨ws', σ', ?_, hlists', htexts⟩
  have hlexem : diffLexem (Script.behaviour ctx) (renderWithin (Script.behaviour ctx) (depth + 1) e)
      (diffWithin (Script.behaviour ctx) (depth + 1)) e (.root Host.root) 0
      ⟨Html.space, "tag", [.str tag, .list list' (texts.map .str)]⟩
      ⟨Html.space, "tag", [.str tag, .list list ((ws.map (·.2)).map .str)]⟩ (.element element (ws.map .ofWording)) σ =
        .ok (.element element (ws'.map .ofWording)) σ' := by
    simp only [diffLexem, isTarget_html htarget, instruction_tag htarget]
    refine Pass.bind_eq_ok.mpr ⟨tag, σ, rfl, Pass.bind_eq_ok.mpr ⟨tag, σ, rfl, ?_⟩⟩
    rw [if_neg (by simp), List.map_map]
    exact Pass.bind_eq_ok.mpr ⟨_, _, hchildren, Pass.bind_eq_ok.mpr ⟨(), _, hteardown, rfl⟩⟩
  rw [packedRendered, packedRendered, htexts]
  exact diffWithin_single (by simp [Lexem.isCongruent]) hlexem

theorem develop_tagged (htag : tag ∈ Html.tags) (texts : List String) (σ : Stage World) : ∃ list world,
    e.develop (Script.behaviour ctx) ⟨Html.space, tag, texts.map .str⟩ σ =
      .ok (Html.packed tag list texts) (σ.inWorld world) := by
  obtain ⟨list, world, hdevelop⟩ := Html.develop_tagged ctx htag texts σ.world
  refine ⟨list, world, ?_⟩
  simp only [develop, Registry.get, htarget]
  exact Pass.attempt_eq_ok.mpr ⟨world, hdevelop, rfl⟩

theorem render_tagged (htag : tag ∈ Html.tags) (texts : List String) (hhost : σ.host = Host.new) :
    ∃ list element ws σ',
      e.render (Script.behaviour ctx) Host.root (Html.tagged tag texts) σ =
        .ok ⟨none, Html.tagged tag texts, [.compound (packedRendered tag list element ws)]⟩ σ' ∧
      σ'.host.Lists tag element ws ∧ ws.map (·.2) = texts := by
  obtain ⟨list, world, hdevelop⟩ := develop_tagged ctx htarget htag texts σ
  have hworld : (σ.inWorld world).host = Host.new := hhost
  obtain ⟨element, ws, σ', hpacked, hlists, htexts⟩ := render_packed ctx 9997 htarget tag list texts hworld
  refine ⟨list, element, ws, σ', ?_, hlists, htexts⟩
  have hlexem : renderLexem (Script.behaviour ctx) (renderWithin (Script.behaviour ctx) 9999 e) e
      (.root Host.root) ⟨Html.space, tag, texts.map .str⟩ σ =
        .ok (.compound (packedRendered tag list element ws)) σ' := by
    simp only [renderLexem, isTarget_html htarget, instruction_tagged htarget htag, if_true]
    exact Pass.bind_eq_ok.mpr ⟨_, _, hdevelop, Pass.bind_eq_ok.mpr ⟨_, _, hpacked, rfl⟩⟩
  exact renderWithin_single hlexem

/-- A tag word with arguments, or one that had none before, is brought to the new texts. -/
theorem diff_tagged (htag : tag ∈ Html.tags) (list : Identity) (texts : List String) {ws : List Wording}
    (hlists : σ.host.Lists tag element ws) (hcompared : texts ≠ [] ∨ ws = []) : ∃ r ws' σ',
      e.diff (Script.behaviour ctx) Host.root (Html.tagged tag texts)
          ⟨none, Html.tagged tag (ws.map (·.2)), [.compound (packedRendered tag list element ws)]⟩ σ = .ok r σ' ∧
      σ'.host.Lists tag element ws' ∧ ws'.map (·.2) = texts := by
  have hlexem : ∃ list' ws' σ', diffLexem (Script.behaviour ctx) (renderWithin (Script.behaviour ctx) 9999 e)
      (diffWithin (Script.behaviour ctx) 9999) e (.root Host.root) 0 ⟨Html.space, tag, texts.map .str⟩
      ⟨Html.space, tag, (ws.map (·.2)).map .str⟩ (.compound (packedRendered tag list element ws)) σ =
        .ok (.compound (packedRendered tag list' element ws')) σ' ∧
      σ'.host.Lists tag element ws' ∧ ws'.map (·.2) = texts := by
    cases texts with
    | nil =>
        obtain rfl : ws = [] := hcompared.resolve_left fun hne => hne rfl
        refine ⟨list, [], σ, ?_, hlists, rfl⟩
        simp only [diffLexem, List.map_nil, List.isEmpty_nil, Bool.or_true, if_true]
        rfl
    | cons text texts =>
        simp only [diffLexem, isTarget_html htarget, instruction_tagged htarget htag, Bool.not_true]
        cases hchanged : Lexem.argsChanged ⟨Html.space, tag, (text :: texts).map .str⟩
            ⟨Html.space, tag, (ws.map (·.2)).map .str⟩ with
        | false => exact ⟨list, ws, σ, rfl, hlists, (Lexem.argsChanged_str hchanged).symm⟩
        | true =>
            obtain ⟨list', world, hdevelop⟩ := develop_tagged ctx htarget htag (text :: texts) σ
            have hworld : (σ.inWorld world).host.Lists tag element ws := hlists
            obtain ⟨ws', σ', hpacked, hlists', htexts⟩ :=
              diff_packed ctx 9997 htarget list list' (text :: texts) hworld
            refine ⟨list', ws', σ', ?_, hlists', htexts⟩
            exact Pass.bind_eq_ok.mpr ⟨_, _, hdevelop, Pass.bind_eq_ok.mpr ⟨_, _, hpacked, rfl⟩⟩
  obtain ⟨list', ws', σ', hlexem, hlists', htexts⟩ := hlexem
  exact ⟨_, ws', σ', diffWithin_single (by simp [Lexem.isCongruent]) hlexem, hlists', htexts⟩

end Target

/-- A tag word without arguments is passed over, and what the old one had stays. -/
theorem diff_tagged_nil (e : Engine) (tag : String) (olds : List String) (slot : Slot) (σ : Stage World) :
    e.diff (Script.behaviour ctx) Host.root (Html.tagged tag []) ⟨none, Html.tagged tag olds, [slot]⟩ σ =
      .ok ⟨none, Html.tagged tag [], [slot]⟩ σ := by
  have hlexem : diffLexem (Script.behaviour ctx) (renderWithin (Script.behaviour ctx) 9999 e)
      (diffWithin (Script.behaviour ctx) 9999) e (.root Host.root) 0 ⟨Html.space, tag, []⟩
      ⟨Html.space, tag, olds.map .str⟩ slot σ = .ok slot σ := by
    simp only [diffLexem, List.isEmpty_nil, Bool.or_true, if_true]
    rfl
  exact diffWithin_single (by simp [Lexem.isCongruent]) hlexem

/-- An engine for the built-in vocabulary. -/
def html : Engine := (Engine.new Config.default).addLexicon Html.lexicon

theorem html_target : Engine.html.targets.get? Html.space = some Html.lexicon := rfl

end Engine

/-- Rendering a tag word and diffing another with the same tag leaves the markup of a fresh render, in every
case in which the diff looks at the word. -/
theorem tag_children_brought (ctx : Context) (e : Engine) (htarget : e.targets.get? Html.space = some Html.lexicon)
    {tag : String} (htag : tag ∈ Html.tags) (before after : List String) (hcompared : after ≠ [] ∨ before = [])
    (σ σ₀ : Stage World) (hσ : σ.host = Host.new) (hσ₀ : σ₀.host = Host.new) :
    ∃ r σ₁ r' σ₂ r₀ σ₃,
      e.render (Script.behaviour ctx) Host.root (Html.tagged tag before) σ = .ok r σ₁ ∧
      e.diff (Script.behaviour ctx) Host.root (Html.tagged tag after) r σ₁ = .ok r' σ₂ ∧
      e.render (Script.behaviour ctx) Host.root (Html.tagged tag after) σ₀ = .ok r₀ σ₃ ∧
      σ₂.host.toHtmlWithMarkers Host.root = σ₃.host.toHtmlWithMarkers Host.root := by
  obtain ⟨list, element, ws, σ₁, hrender, hlists, hbefore⟩ := Engine.render_tagged ctx htarget htag before hσ
  obtain ⟨r', ws', σ₂, hdiff, hlists', hafter⟩ := Engine.diff_tagged ctx htarget htag list after hlists
    (hcompared.imp_right fun h => by simpa [h] using hbefore)
  obtain ⟨list₀, element₀, ws₀, σ₃, hfresh, hlists₀, hafter₀⟩ := Engine.render_tagged ctx htarget htag after hσ₀
  refine ⟨_, σ₁, r', σ₂, _, σ₃, hrender, hbefore ▸ hdiff, hfresh, ?_⟩
  rw [hlists'.markup, hlists₀.markup, hafter, hafter₀]

/-- Two texts are brought to a single other one. -/
theorem tag_children_brought_shorter : ∃ r σ₁ r' σ₂ r₀ σ₃,
    Engine.html.render (Script.behaviour .html) Host.root (Html.tagged "ul" ["a", "b"]) ⟨Host.new, #[], World.new⟩ =
      .ok r σ₁ ∧
    Engine.html.diff (Script.behaviour .html) Host.root (Html.tagged "ul" ["c"]) r σ₁ = .ok r' σ₂ ∧
    Engine.html.render (Script.behaviour .html) Host.root (Html.tagged "ul" ["c"]) ⟨Host.new, #[], World.new⟩ =
      .ok r₀ σ₃ ∧
    σ₂.host.toHtmlWithMarkers Host.root = σ₃.host.toHtmlWithMarkers Host.root :=
  tag_children_brought .html Engine.html Engine.html_target (by decide) ["a", "b"] ["c"] (.inl (by decide)) _ _ rfl rfl

/-- A single text is not taken away when the word comes without arguments. -/
theorem tag_children_kept : ∃ r σ₁ r' σ₂ r₀ σ₃,
    Engine.html.render (Script.behaviour .html) Host.root (Html.tagged "ul" ["a"]) ⟨Host.new, #[], World.new⟩ =
      .ok r σ₁ ∧
    Engine.html.diff (Script.behaviour .html) Host.root (Html.tagged "ul" []) r σ₁ = .ok r' σ₂ ∧
    Engine.html.render (Script.behaviour .html) Host.root (Html.tagged "ul" []) ⟨Host.new, #[], World.new⟩ =
      .ok r₀ σ₃ ∧
    σ₂.host.toHtmlWithMarkers Host.root = "<ul>a</ul>" ∧ σ₃.host.toHtmlWithMarkers Host.root = "<ul></ul>" := by
  have htag : "ul" ∈ Html.tags := by decide
  have hnew : (⟨Host.new, #[], World.new⟩ : Stage World).host = Host.new := rfl
  obtain ⟨list, element, ws, σ₁, hrender, hlists, hbefore⟩ :=
    Engine.render_tagged .html Engine.html_target htag ["a"] hnew
  obtain ⟨list₀, element₀, ws₀, σ₃, hfresh, hlists₀, hafter⟩ :=
    Engine.render_tagged .html Engine.html_target htag [] hnew
  refine ⟨_, σ₁, _, σ₁, _, σ₃, hrender, Engine.diff_tagged_nil .html Engine.html "ul" ["a"] _ σ₁, hfresh, ?_, ?_⟩
  · rw [hlists.markup, hbefore]
    rfl
  · rw [hlists₀.markup, hafter]
    rfl

end Parlance
