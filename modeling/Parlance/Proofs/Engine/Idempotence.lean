import Parlance.Proofs.Engine.DiffStep
import Parlance.Proofs.Engine.Silence

/-! Diffing against a rebuild. All references in a rebuild are new, so nothing is skipped for being the same:
compounds are developed once more, items are rendered once more, children are gone through, and listeners are
bound once more. Yet every instruction finds that there is nothing to do, so no node changes and no call is
recorded. -/

namespace Parlance

open Pass

variable {ω : Type}

section Arguments

variable {S : Arg → Arg → Prop} (hS : Similarity S) {l l' : Lexem} (h : l'.Alike S l)
include hS h

theorem Similarity.diffEntry_eq_id {key : String} (hkey : l.stringArg 0 = .ok key)
    (hsame : (l'.arg 1).same (l.arg 1) = true) (set : String → String → Host → Host)
    (remove : String → Host → Host) : l'.diffEntry l set remove = .ok id := by
  simp only [Lexem.diffEntry, hS.conformity.stringArg_eq h 0, hkey, hsame, bind, Except.bind, pure, Except.pure]
  simp

/-- A property is left alone, whether it is compared with what the host holds or with the former argument. -/
theorem Similarity.diffProperty_eq_id {name : String} {value : Scalar} (hname : l.stringArg 0 = .ok name)
    (hvalue : l.scalarArg 1 = .ok value) (live : Bool) {node : NodeId} {host : Host}
    (hheld : host.property? node name = some value) :
    ∃ f, l'.diffProperty l live node = .ok f ∧ f host = host := by
  obtain ⟨value', hvalue', hequals, hsame⟩ :=
    (hS.resembles (hS.conformity.arg h 1)).scalar_equals (Lexem.scalarArg_eq_ok.mp hvalue)
  simp only [Lexem.diffProperty, hS.conformity.stringArg_eq h 0, hname, Lexem.scalarArg_eq_ok.mpr hvalue', hsame,
    bind, Except.bind, pure, Except.pure]
  rw [if_neg fun hne => hne rfl]
  cases live with
  | true =>
      rw [if_pos rfl]
      exact ⟨_, rfl, if_pos (by rw [hheld]; exact hequals)⟩
  | false =>
      rw [if_neg Bool.false_ne_true, if_pos trivial]
      exact ⟨_, rfl, rfl⟩

theorem Similarity.diffClass_eq_id (node : NodeId) (host : Host) : l'.diffClass l node host = host := by
  rw [Lexem.diffClass, hS.conformity.presentClass_eq h]
  cases l.presentClass? with
  | none => rfl
  | some name => simp

theorem Similarity.diffClasses_eq_id (node : NodeId) (host : Host) : l'.diffClasses l node host = host := by
  rw [Lexem.diffClasses, hS.conformity.splitClasses_eq h]
  split
  · rfl
  · have hnothing : l.splitClasses.filter (· ∉ l.splitClasses) = [] :=
      List.filter_eq_nil_iff.mpr fun name hname => by simpa using hname
    simp only [hnothing, List.foldl_nil]

end Arguments

namespace Rebuilding

variable {b : Behaviour ω} {e : Engine} {R : Rebuilding b e}
variable (render : Cursor → Phrase → Pass ω Rendered) (diff : Engine → Cursor → Phrase → Rendered → Pass ω Rendered)
variable {c : Cursor} {l l' : Lexem} {σ σ' τ : Stage ω}

/-- An output can be brought to a rebuild of its phrase in silence. -/
def PhraseSettles (R : Rebuilding b e) (c : Cursor) (phrase : Phrase) (r : Rendered) (σ σ' : Stage ω) : Prop :=
  R.Settles c σ σ' (fun w phrase' => R.PhraseAgain w phrase' phrase)
    fun c phrase' τ r' τ' => diff e c phrase' r τ = .ok r' τ'

/-- A slot can be brought to a rebuild of its lexem in silence, by a way of going through the lexem again. -/
def SlotSettles (R : Rebuilding b e) (c : Cursor) (lexem : Lexem) (σ σ' : Stage ω)
    (again : Nat → Cursor → Lexem → Pass ω Slot) : Prop :=
  R.Settles c σ σ' (fun w lexem' => R.LexemAgain w lexem' lexem) fun c lexem' τ slot' τ' =>
    ∀ index, again index c lexem' τ = .ok slot' τ'

theorem edit_silent {f : Host → Host} {slot : Slot} (hf : f τ.host = τ.host) :
    (do Pass.edit f; pure slot : Pass ω Slot) τ = .ok slot τ :=
  bind_eq_ok.mpr ⟨(), τ, edit_eq_ok.mpr (by rw [Stage.onHost, hf]), rfl⟩

theorem editOf_silent {change : Except PassError (Host → Host)} {f : Host → Host} {slot : Slot}
    (hchange : change = .ok f) (hf : f τ.host = τ.host) :
    (do Pass.edit (← Pass.ofExcept change); pure slot : Pass ω Slot) τ = .ok slot τ :=
  bind_eq_ok.mpr ⟨f, τ, ofExcept_eq_ok.mpr ⟨hchange, rfl⟩, edit_silent hf⟩

/-- A word that puts entries on its node leaves them alone. -/
theorem attribute_settles {i : Instruction} {ws : List Write} (hword : e.instruction? l = some i)
    (hwrites : l.writes i = some ws) (hparent : c.parent.index < σ.host.count) :
    R.SlotSettles c l σ (σ.onHost (·.writeAll c.parent ws)) fun index c l' =>
      Engine.diffInstruction b render diff e c index l' l i .attribute := by
  refine ⟨_, .writeAll hparent ws, .onHost σ _,
    fun _ anchor l' τ hl hτ hheld => ⟨.attribute, τ, fun index => ?_, .refl τ⟩⟩
  have hsimilar := alike hl
  have hreads := hl.reads hword
  cases i with
  | attr | data | style =>
      cases hkey : l.stringArg 0 with
      | error => simp [Lexem.writes, hkey, Except.toOption] at hwrites
      | ok key =>
          have hsame := hreads 1 (by simp [Instruction.reads])
          exact editOf_silent (similarity.diffEntry_eq_id hsimilar hkey hsame _ _) rfl
  | prop =>
      simp only [Lexem.writes] at hwrites
      cases hname : l.stringArg 0 with
      | error => simp [hname] at hwrites
      | ok name =>
      cases hvalue : l.scalarArg 1 with
      | error => simp [hname, hvalue] at hwrites
      | ok value =>
      simp only [hname, hvalue, Option.some.injEq] at hwrites
      subst hwrites
      have hset : τ.host.property? c.parent name = some value :=
        (hheld (c.parent, name) (by simp [Write.properties])).trans (Host.property?_setProperty hparent name value)
      obtain ⟨f, hchange, hf⟩ := similarity.diffProperty_eq_id hsimilar hname hvalue e.config.liveProperties hset
      exact editOf_silent hchange hf
  | cssClass => exact edit_silent (similarity.diffClass_eq_id hsimilar c.parent τ.host)
  | classes => exact edit_silent (similarity.diffClasses_eq_id hsimilar c.parent τ.host)
  | id =>
      have hsame := hreads 0 (by simp [Instruction.reads])
      simp only [Engine.diffInstruction, hsame, if_true]
      rfl
  | _ => cases hwrites

theorem text_settles (hword : e.instruction? l = some .text) (node : NodeId) :
    R.SlotSettles c l σ (σ.onHost (·.putText c (l.arg 0).toText)) fun index c l' =>
      Engine.diffInstruction b render diff e c index l' l .text (.text node) := by
  refine ⟨[], .putNode σ.host _ c.parent c.anchor rfl, .onHost σ _,
    fun _ anchor l' τ hl hτ _ => ⟨.text node, τ, fun index => ?_, .refl τ⟩⟩
  have hsame := hl.reads hword 0 (by simp [Instruction.reads])
  simp only [Engine.diffInstruction, hsame, if_true]
  rfl

theorem listener_settles {event : String} {listener : Listener} (hevent : l.stringArg 0 = .ok event)
    (hlistener : l.listener = .ok listener) (id : ListenerId) :
    R.SlotSettles c l σ (σ.onHost fun h => (h.addListener c.parent event listener).2) fun index c l' =>
      Engine.diffInstruction b render diff e c index l' l .on (.listener id) := by
  refine ⟨[], .addListener σ.host c.parent event listener, .onHost σ _, fun _ anchor l' τ hl hτ _ => ?_⟩
  obtain ⟨listener', hlistener'⟩ := similarity.listener_ok (alike hl) hlistener
  refine ⟨.listener id, τ.onHost (·.rebind id listener'), fun index => ?_, .onHost τ _, rfl, rfl⟩
  simp only [Engine.diffInstruction, Engine.diffListener, similarity.conformity.stringArg_eq (alike hl) 0, hevent,
    hlistener']
  simp only [bind_eq_ok, ofExcept_eq_ok]
  refine ⟨event, τ, ⟨rfl, rfl⟩, event, τ, ⟨rfl, rfl⟩, listener', τ, ⟨rfl, rfl⟩, ?_⟩
  rw [if_neg fun hne => hne rfl]
  rfl

theorem raw_settles (hword : e.instruction? l = some .html) (witness : NodeId) (nodes : List NodeId) :
    R.SlotSettles c l σ (σ.onHost fun h => (h.insertRaw c.parent (l.arg 0).toText c.anchor).2.putMarker c
      (e.markerText "html")) fun index c l' =>
        Engine.diffInstruction b render diff e c index l' l .html (.raw witness nodes) := by
  refine ⟨[], .trans (.insertRaw σ.host c.parent _ c.anchor) (.putNode _ _ c.parent c.anchor rfl), .onHost σ _,
    fun _ anchor l' τ hl hτ _ => ⟨.raw witness nodes, τ, fun index => ?_, .refl τ⟩⟩
  have hsame := hl.reads hword 0 (by simp [Instruction.reads])
  simp only [Engine.diffInstruction, hsame, if_true]
  rfl

theorem hook_settles {hook : Identity} {h : Host} {w : ω} (hhook : l.hookArg = .ok hook)
    (hcall : b.hookRender hook c.parent l.hookArgs σ.host σ.world = .ok h w) :
    R.SlotSettles c l σ ((σ.onHost fun _ => h).inWorld w) fun index c' l' =>
      Engine.diffInstruction b render diff e c' index l' l .onDom (.hook c.parent) := by
  obtain ⟨hlater, calls, hcalls⟩ := R.hookRender hcall
  refine ⟨_, ⟨calls, hcalls, rfl⟩, (Onward.onHost σ _).trans (.inWorld hlater), fun _ anchor l' τ hl hτ _ => ?_⟩
  have harg := arg hl 0
  have hhook' : l'.hookArg = .ok hook ∧ (l'.arg 0).same (l.arg 0) = true := by
    unfold Lexem.hookArg at hhook ⊢
    generalize l'.invalid 0 _ = failure
    generalize hinvalid : l.invalid 0 _ = failure' at hhook
    generalize l.arg 0 = a, l'.arg 0 = a' at harg hhook
    cases harg <;> first | (cases hhook; exact ⟨rfl, by simp [Arg.same]⟩) | (subst hinvalid; cases hhook)
  obtain ⟨w₂, hdiff, hw₂⟩ := R.hookDiff τ.host hcall hτ.world (List.forall₂_drop 1 hl.args)
  refine ⟨.hook c.parent, τ.inWorld w₂, fun index => ?_, .inWorld hw₂⟩
  simp only [Engine.diffInstruction, Engine.diffHook, bind_eq_ok, ofExcept_eq_ok]
  refine ⟨hook, τ, ⟨hhook'.1, rfl⟩, hook, τ, ⟨hhook, rfl⟩, ?_⟩
  rw [hhook'.2, if_pos rfl]
  exact bind_eq_ok.mpr ⟨(), τ.inWorld w₂, actOnHost_eq_ok.mpr ⟨τ.host, w₂, hdiff, rfl⟩, rfl⟩

theorem callback_settles {callback : Identity} {w : ω} (hcallback : l.callbackArg = .ok callback)
    (hcall : b.callback callback (l.arg 1).items σ.world = .ok () w) :
    R.SlotSettles c l σ (σ.inWorld w) fun index c l' =>
      Engine.diffInstruction b render diff e c index l' l .execute .effect := by
  refine ⟨[], .refl _, .inWorld ((R.callback callback).goesOn (x := ()) hcall), fun _ anchor l' τ hl hτ _ => ?_⟩
  have harg := arg hl 0
  have hcallback' : l'.callbackArg = .ok callback := by
    unfold Lexem.callbackArg at hcallback ⊢
    generalize l'.invalid 0 _ = failure
    generalize hinvalid : l.invalid 0 _ = failure' at hcallback
    generalize l.arg 0 = a, l'.arg 0 = a' at harg hcallback
    cases harg <;> first | (cases hcallback; rfl) | (subst hinvalid; cases hcallback)
  obtain ⟨_, w₂, hcall', hw₂, -⟩ :=
    (R.callback callback).again (x := ()) hcall hτ.world (similarity.resembles (arg hl 1)).conforms.items
  cases hchanged : l'.packedChanged l with
  | false =>
      refine ⟨.effect, τ, fun index => ?_, .refl τ⟩
      simp only [Engine.diffInstruction, hchanged]
      rfl
  | true =>
      refine ⟨.effect, τ.inWorld w₂, fun index => ?_, .inWorld hw₂⟩
      simp only [Engine.diffInstruction, Engine.runCallback, hchanged, if_true]
      have hrun := act_eq_ok.mpr ⟨w₂, hcall', rfl⟩
      exact bind_eq_ok.mpr ⟨(), _, bind_eq_ok.mpr ⟨callback, τ, ofExcept_eq_ok.mpr ⟨hcallback', rfl⟩, hrun⟩, rfl⟩

theorem name_settles (hname : Engine.nameNode c l σ = .ok () σ') :
    R.SlotSettles c l σ σ' fun index c l' => Engine.diffInstruction b render diff e c index l' l .ref .effect := by
  unfold Engine.nameNode at hname
  cases hcomponent : c.component with
  | none =>
      rw [hcomponent] at hname
      obtain ⟨-, rfl⟩ := pure_eq_ok.mp hname
      refine ⟨[], .refl _, .refl _, fun _ anchor l' τ hl hτ _ => ⟨.effect, τ, fun index => ?_, .refl τ⟩⟩
      simp only [Engine.diffInstruction, Engine.nameNode, hcomponent]
      rfl
  | some id =>
      simp only [hcomponent, bind_eq_ok, ofExcept_eq_ok, editInstance_eq_ok] at hname
      obtain ⟨name, _, ⟨hok, rfl⟩, rfl⟩ := hname
      refine ⟨[], .refl _, .onInstance σ id fun _ => rfl, fun _ anchor l' τ hl hτ _ => ?_⟩
      have hok' := (similarity.conformity.stringArg_eq (alike hl) 0).trans hok
      refine ⟨.effect, τ.onInstance id fun i => { i with refs := i.refs.put name c.parent }, fun index => ?_,
        .onInstance τ id fun _ => rfl, rfl, rfl⟩
      simp only [Engine.diffInstruction, Engine.nameNode, hcomponent]
      exact bind_eq_ok.mpr ⟨(), _, bind_eq_ok.mpr ⟨name, τ, ofExcept_eq_ok.mpr ⟨hok', rfl⟩, rfl⟩, rfl⟩

/-- A choice is made once more before its marker. -/
theorem diffBranch_again {witness : NodeId} {chosen chosen' : Option Phrase} {developed : Option Rendered}
    {developed' : List Rendered} (h : Resumed (fun (_ : Phrase) r phrase' τ r' τ' =>
      diff e (c.before witness) phrase' r τ = .ok r' τ') chosen.toList developed.toList chosen'.toList τ
        developed' σ') :
    ∃ next, Engine.diffBranch b render diff e c witness chosen' developed false τ = .ok (.branch witness next) σ' := by
  rcases chosen with _ | phrase <;> rcases developed with _ | r <;> rcases chosen' with _ | phrase' <;> cases h
  · exact ⟨none, rfl⟩
  case cons r' _ _ hdiff hrest =>
    cases hrest
    refine ⟨some r', ?_⟩
    simp only [Engine.diffBranch]
    exact bind_eq_ok.mpr ⟨r', σ', hdiff, rfl⟩

/-- Items are gone through once more, and none is left over. -/
theorem diffItems_again {phrases phrases' : List Phrase} {items items' : List Rendered}
    (h : Resumed (fun (_ : Phrase) r phrase' τ r' τ' => diff e c phrase' r τ = .ok r' τ') phrases items phrases' τ
      items' σ') : Engine.diffItems render diff e c phrases' items τ = .ok (items', []) σ' := by
  induction h with
  | nil => rfl
  | cons head _ ih => exact bind_eq_ok.mpr ⟨_, _, head, bind_eq_ok.mpr ⟨_, _, ih, rfl⟩⟩

/-- A child that is gone through once more, or left as it is if it is the same argument. -/
def ChildResumed (e : Engine) (tag : Lexem) (child : Arg) (r : Rendered) (c : Cursor) (child' : Arg)
    (τ : Stage ω) (r' : Rendered) (τ' : Stage ω) : Prop :=
  child.same child' = true ∧ r' = r ∧ τ' = τ ∨
    child.same child' = false ∧ ∃ phrase, e.childPhrase tag child' = .ok phrase ∧ diff e c phrase r τ = .ok r' τ'

theorem diffChildren_again (hspace : l'.space = l.space) {children children' : List Arg}
    {kids kids' : List Rendered}
    (h : Resumed (fun child r child' => ChildResumed diff e l child r c child') children kids children' τ kids' σ') :
    Engine.diffChildren render diff e c l' children' children kids τ = .ok (kids', []) σ' := by
  have hphrase : e.childPhrase l' = e.childPhrase l := by
    funext child
    rw [Engine.childPhrase.eq_def, Engine.childPhrase.eq_def, hspace]
  induction h with
  | nil => rfl
  | cons head _ ih =>
      simp only [Engine.diffChildren, List.head?_cons, Option.any_some, List.tail_cons, hphrase]
      rcases head with ⟨hsame, rfl, rfl⟩ | ⟨hsame, phrase, hok, hdiff⟩
      · rw [hsame, if_pos rfl]
        exact bind_eq_ok.mpr ⟨_, _, rfl, bind_eq_ok.mpr ⟨_, _, ih, rfl⟩⟩
      · rw [hsame, if_neg Bool.false_ne_true]
        exact bind_eq_ok.mpr ⟨phrase, _, ofExcept_eq_ok.mpr ⟨hok, rfl⟩,
          bind_eq_ok.mpr ⟨_, _, hdiff, bind_eq_ok.mpr ⟨_, _, ih, rfl⟩⟩⟩

variable {render diff}

/-- Past the checks that come before every instruction. -/
theorem SlotSettles.of_instruction {i : Instruction} {slot : Slot} (hspace : e.isTarget l.space = true)
    (hword : e.instruction? l = some i)
    (h : R.SlotSettles c l σ σ' fun index c l' => Engine.diffInstruction b render diff e c index l' l i slot) :
    R.SlotSettles c l σ σ' fun index c l' => Engine.diffLexem b render diff e c index l' l slot := by
  refine Settles.within h (.refl _) (.refl _) (.refl _) (.refl _) fun anchor l' τ hl hτ hagain => ?_
  cases hbare : l'.args.isEmpty with
  | true =>
      refine ⟨slot, τ, fun index => ?_, .refl τ⟩
      simp only [Engine.diffLexem, hbare, Bool.or_true, if_true]
      rfl
  | false =>
      obtain ⟨slot', τ', hslot, hquiet⟩ := hagain anchor l' τ (.refl τ) hl
      refine ⟨slot', τ', fun index => ?_, hquiet⟩
      simp only [Engine.diffLexem, hbare, hl.space, hspace, hl.instruction_eq, hword]
      exact hslot index

/-- Lexems are gone through once more, each with its own slot. -/
theorem diffLexems_again {lexems lexems' : List Lexem} {slots slots' : List Slot}
    (hcongruent : List.Forall₂ (fun l' l : Lexem => l'.isCongruent l = true) lexems' lexems)
    (h : Resumed (fun l slot l' τ slot' τ' => ∀ index, Engine.diffLexem b render diff e c index l' l slot τ =
      .ok slot' τ') lexems slots lexems' τ slots' σ') (index : Nat) :
    Engine.diffLexems b render diff e c index lexems' lexems slots τ = .ok slots' σ' := by
  induction h generalizing index with
  | nil => rfl
  | cons head _ ih =>
      cases hcongruent with
      | cons hhead hcongruent =>
      simp only [Engine.diffLexems, hhead, if_true]
      exact bind_eq_ok.mpr ⟨_, _, head index, bind_eq_ok.mpr ⟨_, _, ih hcongruent _, rfl⟩⟩

section Inner

variable (hinner : ∀ {c : Cursor} {phrase : Phrase} {σ : Stage ω} {r : Rendered} {σ' : Stage ω},
  c.parent.index < σ.host.count → render c phrase σ = .ok r σ' → R.PhraseSettles diff c phrase r σ σ')
include hinner

theorem compound_settles {s : Sentence} {w : ω} {r : Rendered} (hparent : c.parent.index < σ.host.count)
    (hspace : e.isTarget l.space = true) (hword : e.instruction? l = none)
    (hdevelop : e.develop b l σ = .ok s (σ.inWorld w)) (hrender : render c (.new s) (σ.inWorld w) = .ok r σ') :
    R.SlotSettles c l σ σ' fun index c l' => Engine.diffLexem b render diff e c index l' l (.compound r) := by
  obtain ⟨_, hdevelops, heq⟩ := Engine.develop_ok hdevelop
  cases heq
  refine (hinner (σ := σ.inWorld w) hparent hrender).within (.refl σ.host) (.inWorld (develops_later hdevelops))
    (.refl _) (.refl _) fun anchor l' τ hl hτ hagain => ?_
  have hunfold : ∀ index, Engine.diffLexem b render diff e { c with anchor } index l' l (.compound r) τ =
      (if l'.args.isEmpty || !l'.argsChanged l then pure (.compound r) else do
        pure (.compound (← diff e { c with anchor } (.new (← e.develop b l')) r)) : Pass ω Slot) τ := by
    intro index
    simp only [Engine.diffLexem, hl.space, hspace, hl.instruction_eq, hword]
    cases l'.args.isEmpty <;> cases l'.argsChanged l <;> rfl
  cases hskip : l'.args.isEmpty || !l'.argsChanged l with
  | true => exact ⟨.compound r, τ, fun index => (hunfold index).trans (by rw [hskip]; rfl), .refl τ⟩
  | false =>
      obtain ⟨s', w₂, hdevelops', hw₂, hs'⟩ := develops_again hdevelops hτ.world hl
      obtain ⟨r', τ', hdiff, hquiet⟩ := hagain anchor (.new s') (τ.inWorld w₂) (.inWorld hw₂) hs'
      refine ⟨.compound r', τ', fun index => (hunfold index).trans ?_, (Quiet.inWorld hw₂).trans hquiet⟩
      rw [hskip, if_neg Bool.false_ne_true]
      exact bind_eq_ok.mpr ⟨s', _, hdevelops'.ok, bind_eq_ok.mpr ⟨r', τ', hdiff, rfl⟩⟩

theorem phrases_settle {phrases : List Phrase} {rs : List Rendered} (hparent : c.parent.index < σ.host.count)
    (h : Chain (render c) phrases σ rs σ') :
    R.Settles c σ σ' (fun w phrases' => List.Forall₂ (R.PhraseAgain w) phrases' phrases) fun c =>
      Resumed (fun _ r phrase' τ r' τ' => diff e c phrase' r τ = .ok r' τ') phrases rs :=
  settles_chain (fun phrase w phrase' => R.PhraseAgain w phrase' phrase)
    (fun _ r c phrase' τ r' τ' => diff e c phrase' r τ = .ok r' τ')
    (fun hlater hphrase => phraseAgain_mono hlater hphrase) hinner hparent h

theorem branch_settles {i : Instruction} {label : String} {m : Pass ω (Option Phrase)} {chosen : Option Phrase}
    {w : ω} {developed : Option Rendered} (hparent : c.parent.index < σ.host.count)
    (hword : e.instruction? l = some i) (hchoice : e.choice b l i = some (label, m))
    (hchosen : m σ = .ok chosen (σ.inWorld w))
    (hrender : Chain (render c) chosen.toList (σ.inWorld w) developed.toList σ') (witness : NodeId) :
    R.SlotSettles c l σ (σ'.onHost (·.putMarker c (e.markerText label))) fun index c l' =>
      Engine.diffInstruction b render diff e c index l' l i (.branch witness developed) := by
  have hsettles := phrases_settle hinner (σ := σ.inWorld w) hparent hrender
  have hmarker : Host.Sets [] σ'.host (σ'.host.putMarker c (e.markerText label)) :=
    .putNode σ'.host _ c.parent c.anchor rfl
  cases i <;> cases hchoice
  case ifElse =>
    obtain ⟨_, hchooses, heq⟩ := Engine.chosenPhrase_ok hchosen
    cases heq
    refine hsettles.within (.refl σ.host) (.inWorld (chooses_later hchooses)) hmarker (.onHost σ' _)
      fun anchor l' τ hl hτ hagain => ?_
    obtain ⟨chosen', w₂, hchooses', hw₂, hphrases⟩ := chooses_again hchooses hτ.world hl
    obtain ⟨developed', τ', hresumed, hquiet⟩ :=
      hagain (some witness) chosen'.toList (τ.inWorld w₂) (.inWorld hw₂) hphrases
    obtain ⟨next, hbranch⟩ := diffBranch_again (b := b) render diff (c := { c with anchor }) hresumed
    refine ⟨.branch witness next, τ', fun index => ?_, (Quiet.inWorld hw₂).trans hquiet⟩
    have hflipped : ((l'.arg 0).isTruthy != (l.arg 0).isTruthy) = false := by
      rw [(similarity.resembles (arg hl 0)).conforms.isTruthy_eq, bne_self_eq_false]
    simp only [Engine.diffInstruction, hflipped]
    exact bind_eq_ok.mpr ⟨chosen', _, hchooses'.ok, hbranch⟩
  case switchUse =>
    obtain ⟨_, hswitches, heq⟩ := Engine.switchedPhrase_ok hchosen
    cases heq
    refine hsettles.within (.refl σ.host) (.inWorld (switches_later hswitches)) hmarker (.onHost σ' _)
      fun anchor l' τ hl hτ hagain => ?_
    cases hchanged : l'.packedChanged l with
    | false =>
        refine ⟨.branch witness developed, τ, fun index => ?_, .refl τ⟩
        simp only [Engine.diffInstruction, hchanged]
        rfl
    | true =>
        obtain ⟨chosen', w₂, hswitches', hw₂, hphrases⟩ := switches_again hword hswitches hτ.world hl
        obtain ⟨developed', τ', hresumed, hquiet⟩ :=
          hagain (some witness) chosen'.toList (τ.inWorld w₂) (.inWorld hw₂) hphrases
        obtain ⟨next, hbranch⟩ := diffBranch_again (b := b) render diff (c := { c with anchor }) hresumed
        refine ⟨.branch witness next, τ', fun index => ?_, (Quiet.inWorld hw₂).trans hquiet⟩
        have hsame := hl.reads hword 0 (by simp [Instruction.reads])
        simp only [Engine.diffInstruction, hchanged, if_true, hsame]
        exact bind_eq_ok.mpr ⟨chosen', _, hswitches'.ok, hbranch⟩

theorem each_settles {phrases : List Phrase} {w : ω} {items : List Rendered}
    (hparent : c.parent.index < σ.host.count) (hphrases : Engine.eachPhrases b l σ = .ok phrases (σ.inWorld w))
    (hrender : Chain (render c) phrases (σ.inWorld w) items σ') (witness : NodeId) :
    R.SlotSettles c l σ (σ'.onHost (·.putMarker c (e.markerText "each"))) fun index c l' =>
      Engine.diffInstruction b render diff e c index l' l .each (.each witness items) := by
  obtain ⟨_, hlists, heq⟩ := Engine.eachPhrases_ok hphrases
  cases heq
  refine (phrases_settle hinner (σ := σ.inWorld w) hparent hrender).within (.refl σ.host)
    (.inWorld (lists_later hlists)) (.putNode σ'.host _ c.parent c.anchor rfl) (.onHost σ' _)
    fun anchor l' τ hl hτ hagain => ?_
  obtain ⟨phrases', w₂, hlists', hw₂, hphrases'⟩ := lists_again hlists hτ.world hl
  obtain ⟨items', τ', hresumed, hquiet⟩ := hagain (some witness) phrases' (τ.inWorld w₂) (.inWorld hw₂) hphrases'
  refine ⟨.each witness items', τ', fun index => ?_, (Quiet.inWorld hw₂).trans hquiet⟩
  have hitems := diffItems_again render diff (c := Cursor.before { c with anchor } witness) hresumed
  simp only [Engine.diffInstruction]
  exact bind_eq_ok.mpr ⟨phrases', _, hlists'.ok, bind_eq_ok.mpr ⟨(items', []), τ', hitems, rfl⟩⟩

theorem children_settle {phrases : List Phrase} {kids : List Rendered} (hparent : c.parent.index < σ.host.count)
    (hphrases : e.ChildPhrases l l.children phrases) (h : Chain (render c) phrases σ kids σ') :
    R.Settles c σ σ' (fun w children' => List.Forall₂ (fun child' child => R.ChildAgain l child w child')
      children' l.children) fun c => Resumed (fun child r child' => ChildResumed diff e l child r c child')
        l.children kids := by
  refine settles_chain (R.ChildAgain l) (ChildResumed diff e l) (fun hlater h => h.mono hlater)
    (fun {child σ r σ'} hparent h => ?_) hparent (Engine.chain_of_childPhrases hphrases h)
  obtain ⟨phrase, _, hok, hrender⟩ := bind_eq_ok.mp h
  obtain ⟨hphrase, rfl⟩ := ofExcept_eq_ok.mp hok
  refine (hinner hparent hrender).within (.refl _) (.refl _) (.refl _) (.refl _)
    fun anchor child' τ hchild hτ hagain => ?_
  cases hsame : child.same child' with
  | true => exact ⟨r, τ, .inl ⟨hsame, rfl, rfl⟩, .refl τ⟩
  | false =>
      obtain ⟨phrase', hphrase', hphrases⟩ := childPhrase_again hphrase hchild.arg hchild.text
      obtain ⟨r', τ', hdiff, hquiet⟩ := hagain anchor phrase' τ (.refl τ) hphrases
      exact ⟨r', τ', .inr ⟨hsame, phrase', hphrase', hdiff⟩, hquiet⟩

theorem element_settles {tag : String} {phrases : List Phrase} {kids : List Rendered}
    (hword : e.instruction? l = some .tag) (htag : l.stringArg 0 = .ok tag)
    (hphrases : e.ChildPhrases l l.children phrases)
    (hrender : Chain (render (c.inside σ.host.next)) phrases (σ.onHost (·.putElement c tag)) kids σ') :
    R.SlotSettles c l σ σ' fun index c l' =>
      Engine.diffInstruction b render diff e c index l' l .tag (.element σ.host.next kids) := by
  have hput : Host.Sets [] σ.host (σ.host.putElement c tag) := .putNode σ.host _ c.parent c.anchor rfl
  have hinside : (c.inside σ.host.next).parent.index < (σ.onHost (·.putElement c tag)).host.count := by
    have hcount : (σ.host.putElement c tag).count = σ.host.count + 1 :=
      (Host.putNode_makes σ.host c.parent (.element tag) c.anchor _).count
    exact hcount ▸ Nat.lt_succ_self _
  refine (children_settle hinner hinside hphrases hrender).within hput (.onHost σ _) (.refl _) (.refl _)
    fun anchor l' τ hl hτ hagain => ?_
  obtain ⟨kids', τ', hresumed, hquiet⟩ := hagain none l'.children τ (.refl τ) (children_again hword hl)
  refine ⟨.element σ.host.next kids', τ', fun index => ?_, hquiet⟩
  have hkids := diffChildren_again render diff hl.space hresumed
  simp only [Engine.diffInstruction, Engine.diffTag, (similarity.conformity.stringArg_eq (alike hl) 0).trans htag,
    htag]
  refine bind_eq_ok.mpr ⟨tag, τ, rfl, bind_eq_ok.mpr ⟨tag, τ, rfl, ?_⟩⟩
  rw [if_neg fun hne => hne rfl]
  exact bind_eq_ok.mpr ⟨(kids', []), τ', hkids, rfl⟩

theorem component_settles {factory : Factory} {w₁ w₂ w₃ w₄ : ω} {s : Sentence} {r : Rendered}
    (hparent : c.parent.index < σ.host.count) (hword : e.instruction? l = some .component)
    (hfactory : l.componentArg = .ok factory)
    (hcreate : b.create factory ⟨σ.instances.size⟩ (l.arg 1) σ.world = .ok () w₁)
    (hwill : b.lifecycle ⟨σ.instances.size⟩ .willMount w₁ = .ok () w₂)
    (hview : b.view ⟨σ.instances.size⟩ w₂ = .ok s w₃)
    (hrender : render { c with component := some ⟨σ.instances.size⟩ } (.new s)
      ⟨σ.host, σ.instances.push ⟨factory, e, c.parent, none, none, []⟩, w₃⟩ = .ok r σ')
    (hdid : b.lifecycle ⟨σ.instances.size⟩ .didMount σ'.world = .ok () w₄) :
    R.SlotSettles c l σ (((σ'.onHost (·.putMarker c (e.markerText "component"))).onInstance ⟨σ.instances.size⟩
        fun i => { i with developed := some r, witness := some σ'.host.next }).inWorld w₄)
      fun index c l' => Engine.diffInstruction b render diff e c index l' l .component
        (.component ⟨σ.instances.size⟩) := by
  have hmounted : R.Onward σ ⟨σ.host, σ.instances.push ⟨factory, e, c.parent, none, none, []⟩, w₃⟩ := by
    refine ⟨R.trans (R.create hcreate) (R.trans (R.lifecycle hwill) (R.view hview)), fun n i hi => ⟨i, ?_, rfl⟩⟩
    rw [Array.getElem?_push, if_neg, hi]
    rintro rfl
    simp at hi
  have hrecorded := Onward.onInstance (R := R) (σ'.onHost (·.putMarker c (e.markerText "component")))
    ⟨σ.instances.size⟩ (f := fun i => { i with developed := some r, witness := some σ'.host.next }) fun _ => rfl
  have hsettles := hinner (c := { c with component := some ⟨σ.instances.size⟩ })
    (σ := ⟨σ.host, σ.instances.push ⟨factory, e, c.parent, none, none, []⟩, w₃⟩) hparent hrender
  refine hsettles.within (.refl σ.host) hmounted (.putNode σ'.host _ c.parent c.anchor rfl)
    ⟨R.lifecycle hdid, hrecorded.factories⟩
    fun anchor l' τ hl hτ _ => ⟨.component ⟨σ.instances.size⟩, τ, fun index => ?_, .refl τ⟩
  have hsame := hl.reads hword 1 (by simp [Instruction.reads])
  have hfactory' : l'.componentArg = .ok factory := by
    have harg := arg hl 0
    unfold Lexem.componentArg at hfactory ⊢
    generalize l'.invalid 0 _ = failure
    generalize hinvalid : l.invalid 0 _ = failure' at hfactory
    generalize l.arg 0 = a, l'.arg 0 = a' at harg hfactory
    cases harg <;> first | (cases hfactory; rfl) | (subst hinvalid; cases hfactory)
  obtain ⟨i, hi, htype⟩ := hτ.factories σ.instances.size ⟨factory, e, c.parent, none, none, []⟩
    (Array.getElem?_push_size)
  simp only [Engine.diffInstruction, Engine.diffComponent, hsame, if_true]
  refine bind_eq_ok.mpr ⟨factory, τ, ofExcept_eq_ok.mpr ⟨hfactory', rfl⟩, bind_eq_ok.mpr ⟨τ.instances, τ, rfl, ?_⟩⟩
  simp only [hi]
  rw [if_neg (by rw [htype]; exact fun hne => hne rfl)]
  rfl

/-- Whatever a lexem has left, going through a rebuild of it changes nothing. -/
theorem lexem_settles {slot : Slot} (hparent : c.parent.index < σ.host.count)
    (h : Engine.RenderStep b render e c l σ slot σ') :
    R.SlotSettles c l σ σ' fun index c l' => Engine.diffLexem b render diff e c index l' l slot := by
  cases h with
  | skipped hspace =>
      refine ⟨[], .refl _, .refl _, fun _ anchor l' τ hl _ _ => ⟨.skipped, τ, fun index => ?_, .refl τ⟩⟩
      simp only [Engine.diffLexem, hl.space, hspace]
      rfl
  | compound hspace hword hdevelop hrender =>
      exact compound_settles hinner hparent hspace hword hdevelop hrender
  | «attribute» hspace hword hwrites =>
      exact .of_instruction hspace hword (attribute_settles render diff hword hwrites hparent)
  | text hspace hword => exact .of_instruction hspace hword (text_settles render diff hword σ.host.next)
  | element hspace hword htag hphrases hrender =>
      exact .of_instruction hspace hword (element_settles hinner hword htag hphrases hrender)
  | listener hspace hword hevent hlistener =>
      exact .of_instruction hspace hword (listener_settles render diff hevent hlistener _)
  | branch hspace hword hchoice hchosen hrender =>
      exact .of_instruction hspace hword (branch_settles hinner hparent hword hchoice hchosen hrender _)
  | each hspace hword hphrases hrender =>
      exact .of_instruction hspace hword (each_settles hinner hparent hphrases hrender _)
  | raw hspace hword => exact .of_instruction hspace hword (raw_settles render diff hword _ _)
  | hook hspace hword hhook hcall => exact .of_instruction hspace hword (hook_settles render diff hhook hcall)
  | callback hspace hword hcallback hcall =>
      exact .of_instruction hspace hword (callback_settles render diff hcallback hcall)
  | name hspace hword hname => exact .of_instruction hspace hword (name_settles render diff hname)
  | component hspace hword hfactory hcreate hwill hview hrender hdid =>
      exact .of_instruction hspace hword
        (component_settles hinner hparent hword hfactory hcreate hwill hview hrender hdid)

/-- So is a whole sentence, if the passes for what is inside its lexems are of this kind. -/
theorem phrase_settles {phrase : Phrase} {r : Rendered} (hparent : c.parent.index < σ.host.count)
    (h : Engine.renderPhrase b render e c phrase σ = .ok r σ') :
    R.Settles c σ σ' (fun w phrase' => R.PhraseAgain w phrase' phrase)
      fun c phrase' τ r' τ' => Engine.diffPhrase b render diff e c phrase' r τ = .ok r' τ' := by
  obtain ⟨slots, rfl, hchain⟩ := Engine.renderPhrase_ok h
  have hsettles := settles_chain (fun l w l' => R.LexemAgain w l' l)
    (fun l slot c l' τ slot' τ' =>
      ∀ index, Engine.diffLexem b render diff e c index l' l slot τ = .ok slot' τ')
    (fun hlater hl => lexemAgain_mono hlater hl)
    (fun hparent h => lexem_settles hinner hparent (Engine.renderLexem_step h)) hparent hchain
  refine hsettles.within (.refl _) (.refl _) (.refl _) (.refl _) fun anchor phrase' τ hphrase hτ hagain => ?_
  cases hreuses : e.reuses phrase' ⟨phrase.identity, phrase.sentence, slots⟩ with
  | true =>
      refine ⟨⟨phrase.identity, phrase.sentence, slots⟩, τ, ?_, .refl τ⟩
      rw [Engine.diffPhrase, hreuses]
      rfl
  | false =>
      obtain ⟨slots', τ', hresumed, hquiet⟩ := hagain anchor phrase'.sentence.lexems τ (.refl τ) hphrase
      refine ⟨⟨phrase'.identity, phrase'.sentence, slots'⟩, τ', ?_, hquiet⟩
      have hlength : phrase'.sentence.length = phrase.sentence.length := hphrase.length_eq
      have hcongruent : List.Forall₂ (fun l' l : Lexem => l'.isCongruent l = true) phrase'.sentence.lexems
          phrase.sentence.lexems := hphrase.imp fun l' l hl => by simp [Lexem.isCongruent, hl.name, hl.space]
      simp only [Engine.diffPhrase, hreuses, hlength]
      rw [if_neg Bool.false_ne_true, if_neg fun hne => hne rfl]
      exact bind_eq_ok.mpr ⟨slots', τ', diffLexems_again hcongruent hresumed 0, rfl⟩

end Inner

/-- The passes settle, however deep they may go. -/
theorem within_settles (depth : Nat) {c : Cursor} {phrase : Phrase} {σ : Stage ω} {r : Rendered} {σ' : Stage ω}
    (hparent : c.parent.index < σ.host.count) (h : Engine.renderWithin b depth e c phrase σ = .ok r σ') :
    R.PhraseSettles (Engine.diffWithin b depth) c phrase r σ σ' := by
  induction depth generalizing c phrase σ r σ' with
  | zero => cases h
  | succ depth ih => exact phrase_settles ih hparent h

end Rebuilding

/-- In a behaviour where nothing happens, everything counts as rebuilt. -/
def Rebuilding.inert (e : Engine) : Rebuilding Behaviour.inert e where
  later _ _ := True
  functions _ _ _ := True
  refl _ := trivial
  trans _ _ := trivial
  mono _ h := h
  run body init lexicon level := by
    refine ⟨fun _ => trivial, fun {args w s w' args' w₁} h _ _ => ⟨_, w₁, rfl, trivial, ?_⟩⟩
    cases h
    exact .nil
  render index := by
    refine ⟨fun _ => trivial, fun {f w s w' f' w₁} h _ _ => ⟨_, w₁, rfl, trivial, ?_⟩⟩
    cases h
    exact .nil
  callback _ := ⟨fun _ => trivial, fun {_ _ _ _ _ w₁} _ _ _ => ⟨(), w₁, rfl, trivial, trivial⟩⟩
  hookRender h := by
    cases h
    exact ⟨trivial, [], .refl _⟩
  hookDiff {_ _ _ _ _ _ _ _ w₁} _ _ _ _ := ⟨w₁, rfl, trivial⟩
  create _ := trivial
  view _ := trivial
  lifecycle _ := trivial

/-- A sentence with references counted from a number on: a property, an element and a list. -/
def Sentence.counted (n : Nat) : Sentence :=
  .plain [("prop", [.str "value", .str "x"]),
    ("tag", [.str "div", .list ⟨n⟩ [.sentence ⟨n + 1⟩ (.plain [("attr", [.str "title", .str "t"])]), .str "Count"]]),
    ("each", [.list ⟨n + 2⟩ [.bool true], .render ⟨n + 3⟩])]

end Parlance
