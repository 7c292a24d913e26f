import Parlance.Proofs.Engine.Items

/-! A diff is thrifty. What is in both outputs it leaves where it is, at any depth; it makes nodes for slots that are new
and for nothing else; and of a list it diffs the items that both have, renders those at the end that only the new one
has, and takes away those that only the old one had. -/

namespace Parlance

open Pass

variable {ω : Type} {b : Behaviour ω} {p n : NodeId} {e : Engine} {c : Cursor} {σ σ' σ₁ : Stage ω} {r r' : Rendered}
variable {lexem old : Lexem} {slot slot' : Slot} {lexems olds : List Lexem} {slots slots' : List Slot}
variable {l : LexemCall ω} {d : DiffCall ω}

/-- A node from before stands under the parent that it had, and no call has put it anywhere or taken it away. -/
structure Host.Unmoved (h h' : Host) (n : NodeId) : Prop where
  old : n.index < h.count
  parent : ∃ q, h.parent n = some q ∧ h'.parent n = some q
  calls : ∀ ms, h'.calls = h.calls ++ ms → ∀ m ∈ ms, m.moved? ≠ some n

/-- Wherever a word retains what it has, the slot is what it was, and its nodes are where they were. -/
def InPlace (e : Engine) (ws ws' : List (Lexem × Slot)) (σ σ' : Stage ω) : Prop :=
  ∀ e₁ w w', Counterpart σ.instances σ'.instances e ws ws' e₁ w w' → e₁.Retains w'.1 w.1 →
    w.2.Remains σ.instances σ'.instances w'.2 ∧ ∀ n ∈ w'.2.anchors σ'.instances, σ.host.Unmoved σ'.host n

section Places

variable {ws ws' : List (Lexem × Slot)} {cs cs' : List InstanceId}

/-- Slots that are patched are patched in place, if all around them is intact before and after. -/
theorem Patched.inPlace (h : Patched σ.instances σ'.instances e ws ws') (hholds : Holds σ.instances (ws.map (·.2)) cs)
    (hholds' : Holds σ'.instances (ws'.map (·.2)) cs') (hintact : Intact σ p olds slots)
    (hintact' : Intact σ' p lexems slots')
    (hwithin : ∀ {q slot}, Stands σ.instances p (ws.map (·.2)) q slot → Stands σ.instances p slots q slot)
    (hwithin' : ∀ {q slot}, Stands σ'.instances p (ws'.map (·.2)) q slot → Stands σ'.instances p slots' q slot)
    (hworks : Host.Works ⟨σ.host.count, False, False⟩ σ.host σ'.host) : InPlace e ws ws' σ σ' := by
  intro e₁ w w' hfacing hretains
  have hremains := h e₁ w w' hfacing hretains
  obtain ⟨⟨q, hstands⟩, q', hstands'⟩ := hfacing.stands hholds hholds' p p
  refine ⟨hremains, fun n hn => ?_⟩
  have hparent := hintact.tops (hwithin hstands) (Slot.tops_of_anchors (hremains.anchors ▸ hn))
  have hold : n.index < σ.host.count := Nat.lt_of_not_le fun hle => by
    rw [Host.parent_of_count_le hle] at hparent
    cases hparent
  have hparent' := hintact'.tops (hwithin' hstands') (Slot.tops_of_anchors hn)
  obtain ⟨hsame, hcalls⟩ := hworks.unmoved hold hold hparent'
  exact ⟨hold, ⟨q', hsame, hparent'⟩, hcalls⟩

end Places

/-- The diff of a lexem works by the rules, and its slot is intact. -/
theorem LexemCall.Ends.intact (hquiet : b.Quiet) (hseated : l.Seated) (hcongruent : l.lexem.isCongruent l.old = true)
    (h : l.Ends b slot' σ') :
    Host.Works ⟨l.start.host.count, False, False⟩ l.start.host σ'.host ∧ Intact σ' l.cursor.parent [l.lexem] [slot'] := by
  have hadmits : Regime.loose.Admits l.engine := fun _ he => by cases he
  have hevolves : Evolves .loose b l.cursor.parent (fun _ => True) l.start [l.old] [l.slot] σ' [l.lexem] [slot'] :=
    DiffStep.evolves hadmits hcongruent (renderWithin_evolves hadmits) (renderWithin_renewal _) diffWithin_evolves
      (diffWithin_renewal _) (Engine.diffLexem_step h)
  have hwhole : Intact l.start l.cursor.parent ([l.old] ++ []) ([l.slot] ++ []) := hseated.intact
  exact hwhole.renew hquiet id (Nat.le_refl _) hseated.parent rfl hevolves

section Lists

variable {depth : Nat} {phrases : List Phrase} {items items' : List Rendered} {witness : NodeId} {w : ω}

namespace Engine

theorem itemPhrases_length {f : Identity} {index : Nat} {args : List Arg} {w w' : ω}
    (h : itemPhrases b f index args w = .ok phrases w') : phrases.length = args.length := by
  induction args generalizing index phrases w with
  | nil =>
      obtain ⟨rfl, -⟩ := itemPhrases_nil_ok.mp h
      rfl
  | cons arg args ih =>
      obtain ⟨s, w₁, rest, -, hrest, rfl, -⟩ := itemPhrases_cons_ok.mp h
      rw [List.length_cons, List.length_cons, ih hrest]

/-- There is one sentence for every item of the list of an `each`. -/
theorem eachPhrases_length (h : eachPhrases b lexem σ = .ok phrases σ') :
    phrases.length = (lexem.arg 0).items.length := by
  obtain ⟨w, ⟨-, f, -, hcalls⟩, -⟩ := eachPhrases_ok h
  exact itemPhrases_length hcalls

/-- What the diff of an `each` consists of. -/
theorem Heeds.each_ok {render : Cursor → Phrase → Pass ω Rendered}
    {diff : Engine → Cursor → Phrase → Rendered → Pass ω Rendered} {index : Nat} (hword : e.Heeds lexem (some .each))
    (h : diffLexem b render diff e c index lexem old slot σ = .ok slot' σ') :
    ∃ witness items items' rest phrases w σ₁, slot = .each witness items ∧ slot' = .each witness items' ∧
      eachPhrases b lexem σ = .ok phrases (σ.inWorld w) ∧
      MatchItems render diff e (c.before witness) phrases items (σ.inWorld w) items' rest σ₁ ∧
      Sweep (teardown b c.parent) rest σ₁ σ' := by
  rw [hword.diffLexem_eq] at h
  have hincongruent : (Pass.ofExcept (lexem.incongruent old index) : Pass ω Slot) σ = .ok slot' σ' → False := fun h => by
    cases (ofExcept_eq_ok.mp h).1
  cases slot with
  | each witness items =>
      simp only [diffInstruction, bind_eq_ok, pure_eq_ok] at h
      obtain ⟨phrases, _, hphrases, ⟨items', rest⟩, σ₁, hitems, _, _, hrest, rfl, rfl⟩ := h
      obtain ⟨w, rfl, -⟩ := eachPhrases_inWorld hphrases
      exact ⟨witness, items, items', rest, phrases, w, σ₁, rfl, rfl, hphrases, diffItems_ok hitems,
        forM_eq_ok.mp hrest⟩
  | _ => exact (hincongruent h).elim

variable (b) in
/-- A slot is what a pass has left for a word. -/
inductive HasLeft (e : Engine) (lexem : Lexem) (slot : Slot) : Prop
  | rendered {depth : Nat} {c : Cursor} {σ σ' : Stage ω}
      (h : renderLexem b (renderWithin b depth e) e c lexem σ = .ok slot σ') : HasLeft e lexem slot
  | diffed {depth index : Nat} {c : Cursor} {old : Lexem} {former : Slot} {σ σ' : Stage ω}
      (h : diffLexem b (renderWithin b depth e) (diffWithin b depth) e c index lexem old former σ = .ok slot σ') :
      HasLeft e lexem slot

/-- A pass leaves as many items as the list of an `each` has. -/
theorem HasLeft.items_length (h : e.HasLeft b lexem (.each witness items)) (hword : e.Heeds lexem (some .each)) :
    items.length = (lexem.arg 0).items.length := by
  cases h with
  | rendered h =>
      cases renderLexem_step h with
      | each _ _ hphrases hinner => rw [hinner.length_eq, eachPhrases_length hphrases]
  | diffed h =>
      obtain ⟨_, _, _, _, phrases, w, σ₁, -, heq, hphrases, hitems, -⟩ := hword.each_ok h
      cases heq
      obtain ⟨kept, added, σ₂, rfl, -, hkept, hadded⟩ := hitems.chains
      rw [← eachPhrases_length hphrases, List.length_append, hkept.length_eq, hadded.length_eq, List.length_zip,
        List.length_drop]
      omega

end Engine

variable (b) in
/-- What the diff of a list does, from when the sentences of its items are there. -/
structure ListDiff (depth : Nat) (e : Engine) (c : Cursor) (phrases : List Phrase) (items items' : List Rendered)
    (σ σ' : Stage ω) : Prop where
  /-- The items that both lists have are diffed, those that only the new one has are rendered after them, and those that
  only the old one has are taken away at last. -/
  passes : ∃ kept added σ₁ σ₂, items' = kept ++ added ∧ kept.length = min items.length phrases.length ∧
    added.length = phrases.length - items.length ∧
    Chain (fun x : Phrase × Rendered => Engine.diffWithin b depth e c x.1 x.2) (phrases.zip items) σ kept σ₁ ∧
    Chain (Engine.renderWithin b depth e c) (phrases.drop items.length) σ₁ added σ₂ ∧
    Sweep (teardown b c.parent) (items.drop phrases.length) σ₂ σ'
  /-- Items that both lists have keep their nodes. -/
  inPlace : ∀ (k : Nat) (q q' : Rendered), items[k]? = some q → items'[k]? = some q' → InPlace e q.pairs q'.pairs σ σ'
  /-- No call touches the nodes of an item that is only rebuilt, if the properties that were set for it are its own. -/
  spares : b.Hookless → ∀ (R : Rebuilding b e) (k : Nat) (q : Rendered) (phrase phrase' : Phrase)
    (properties : List (NodeId × String)), (∀ {w w'}, b.Acts w w' → R.later w w') → items[k]? = some q →
    phrases[k]? = some phrase' → R.Settled depth c phrase q properties σ → R.PhraseAgain σ.world phrase' phrase →
    Unshared σ.instances c.parent properties (items.eraseIdx k) →
    Unshared σ'.instances c.parent properties (items'.eraseIdx k) →
    ∃ ms, σ'.host.calls = σ.host.calls ++ ms ∧ ∀ m ∈ ms, ∀ n, q.Has σ.instances n → n ∉ m.touched

/-- A list that is diffed somewhere in the course of a diff. -/
theorem LexemCall.Ends.listDiff (hquiet : b.Quiet) (hseated : l.Seated) (hcongruent : l.lexem.isCongruent l.old = true)
    (hword : l.engine.Heeds l.lexem (some .each)) (h : l.Ends b slot' σ') :
    ∃ witness items items' phrases w, l.slot = .each witness items ∧ slot' = .each witness items' ∧
      Engine.eachPhrases b l.lexem l.start = .ok phrases (l.start.inWorld w) ∧
      ListDiff b l.depth l.engine (l.cursor.before witness) phrases items items' (l.start.inWorld w) σ' := by
  obtain ⟨witness, items, items', rest, phrases, w, σ₁, hslot, rfl, hphrases, hitems, hrest⟩ := hword.each_ok h
  refine ⟨witness, items, items', phrases, w, hslot, rfl, hphrases, ?_, fun k q q' hq hq' => ?_, ?_⟩
  · obtain ⟨kept, added, σ₂, rfl, rfl, hkept, hadded⟩ := hitems.chains
    refine ⟨kept, added, σ₂, σ₁, rfl, ?_, ?_, hkept, hadded, hrest⟩
    · rw [hkept.length_eq, List.length_zip, Nat.min_comm]
    · rw [hadded.length_eq, List.length_drop]
  · -- the items stand inside a slot that is intact before and after
    obtain ⟨hworks, hintact'⟩ := h.intact hquiet hseated hcongruent
    have hintact := hseated.intact
    obtain ⟨cs, posts, hholds, hnodup, -, -⟩ := id hintact
    obtain ⟨cs', posts', hholds', -, -, -⟩ := id hintact'
    have hpatched : Patched l.start.instances σ'.instances l.engine [(l.old, l.slot)] [(l.lexem, .each witness items')] :=
      DiffStep.patched (renderWithin_renewal (Watch.blind b)) (diffWithin_renewal (Watch.blind b)) diffWithin_patched
        (Engine.diffLexem_step h) hholds hnodup
    have hwhole := hpatched.inPlace hholds hholds' hintact hintact' id id hworks
    have hstays : l.engine.Retains l.lexem l.old := by
      constructor <;> exact fun hother => by cases hword.word.symm.trans hother
    rw [hslot] at hwhole
    exact fun e₁ v v' hfacing hretains =>
      hwhole e₁ v v' (.inside (k := 0) rfl rfl hstays hq hq' hfacing) hretains
  · intro hhookless R k q phrase phrase' properties hacts hq hphrase hsettled hagain hunshared hunshared'
    unfold LexemCall.Seated at hseated
    rw [hslot] at hseated
    exact items_spare (c := l.cursor.before witness) hhookless hacts rfl (hseated.inWorld w) hitems hrest hq hphrase
      hsettled hagain hunshared hunshared'

end Lists

variable (b) in
/-- What a diff of an output does that it could not do with less. -/
structure Thrifty (e : Engine) (p : NodeId) (s : Sentence) (r r' : Rendered) (σ σ' : Stage ω) : Prop where
  /-- Slots that are in both outputs keep their nodes and their components, and none of these nodes is moved. -/
  inPlace : InPlace e r.pairs r'.pairs σ σ'
  /-- Whatever is made is made for a slot of the new output, and not for one that was there before. -/
  creates : σ.host.Creates σ'.host fun n => Borne σ'.instances r'.slots n ∧ ∀ e₁ w w',
    Counterpart σ.instances σ'.instances e r.pairs r'.pairs e₁ w w' → e₁.Retains w'.1 w.1 →
      n ∉ w'.2.anchors σ'.instances
  /-- Every list that the diff comes to, at any depth, is diffed item by item. -/
  lists : ∀ l : LexemCall ω, DiffCall.Meets b ⟨Engine.depthLimit, e, .root p, .new s, r, σ⟩ l →
    l.engine.Heeds l.lexem (some .each) →
    ∃ witness items items' phrases w stop, l.slot = .each witness items ∧ l.Ends b (.each witness items') stop ∧
      Engine.eachPhrases b l.lexem l.start = .ok phrases (l.start.inWorld w) ∧
      phrases.length = (l.lexem.arg 0).items.length ∧
      (∀ (e₀ : Engine) a, e₀.HasLeft b a l.slot → e₀.Heeds a (some .each) → items.length = (a.arg 0).items.length) ∧
      ListDiff b l.depth l.engine (l.cursor.before witness) phrases items items' (l.start.inWorld w) stop

section Runs

variable {between : Host → ω → Host → ω → Prop} {σ₀ : Stage ω} {before after : Outputs} {s : Sentence}

/-- One of the outputs that a run has made is seated. -/
theorem Run.seated (hquiet : b.Quiet) (hstill : ∀ {h w h' w'}, between h w h' w' → h.Still h')
    (hrun : Run .loose b between σ₀ (before ++ (p, r) :: after) σ) :
    r.Paired ∧ Seated σ p r.sentence.lexems r.slots := by
  obtain ⟨cs, posts, hretained, hgrounded, -, hlodged⟩ := hrun.lodged hquiet hstill
  obtain ⟨own, hown, hnodup, hpaired⟩ := hretained.part
  obtain ⟨left, right, rfl, -, hright⟩ := hretained.posted.split
  cases hright with
  | cons hcensus _ =>
  have hattached := hlodged.attached
  rw [linksOf_append, linksOf_append] at hattached
  exact ⟨hpaired, .of_posts (hgrounded (p, r) (by simp)) hown hnodup hcensus hattached.right.left
    hlodged.rising.split.2.split.1⟩

end Runs

/-- A behaviour in which a render function makes a text of what it is given. -/
def Behaviour.listing : Behaviour Unit :=
  { Behaviour.inert with
    render := fun _ item _ => pure (match item with
      | .str text => .plain [("text", [.str text])]
      | _ => .plain []) }

theorem Behaviour.listing_hookless : Behaviour.listing.Hookless := fun h w h' w' hcall => by
  cases hcall with
  | render hcall | diff hcall | remove hcall =>
      cases hcall
      exact ⟨rfl, rfl⟩

/-- There equal texts are rebuilt from equal items. -/
def Rebuilding.listing : Rebuilding Behaviour.listing .plain where
  later _ _ := True
  functions _ _ _ := True
  refl _ := trivial
  trans _ _ := trivial
  mono _ h := h
  run body init lexicon level := by
    refine ⟨fun _ => trivial, fun {args w s w' args' w₁} h _ _ => ⟨_, w₁, rfl, trivial, ?_⟩⟩
    cases h
    exact .nil
  render index := by
    refine ⟨fun _ => trivial, fun {f w s w' f' w₁} h _ hagain => ⟨_, w₁, rfl, trivial, ?_⟩⟩
    cases h
    obtain ⟨-, hitem⟩ := hagain
    generalize f.2 = item, f'.2 = item' at hitem
    cases hitem with
    | @str value =>
        have hsame : ∀ n ∈ Instruction.text.reads, (argAt [Arg.str value] n).same (argAt [Arg.str value] n) = true := by
          rintro n (_ | ⟨_, ⟨⟩⟩)
          exact decide_eq_true rfl
        exact .cons (.of_instruction rfl (.cons .str .nil) hsame .nil) .nil
    | _ => exact .nil
  callback _ := ⟨fun _ => trivial, fun {_ _ _ _ _ w₁} _ _ _ => ⟨(), w₁, rfl, trivial, trivial⟩⟩
  hookRender h := by
    cases h
    exact ⟨trivial, [], .refl _⟩
  hookDiff {_ _ _ _ _ _ _ _ w₁} _ _ _ _ := ⟨w₁, rfl, trivial⟩
  create _ := trivial
  view _ := trivial
  lifecycle _ := trivial

/-- A list of names. -/
def Lexem.roster (names : List String) : Lexem := ⟨"ui", "each", [.list ⟨1⟩ (names.map .str), .render ⟨2⟩]⟩

def Sentence.roster (names : List String) : Sentence := ⟨Lexicon.new "ui" none, .firstLevel, [.roster names]⟩

/-- A name on a host. -/
def Rendered.entry (name : String) (node : NodeId) : Rendered := ⟨none, .plain [("text", [.str name])], [.text node]⟩

/-- Its output, by the names with their text nodes and the marker of the list. -/
def Rendered.roster (rows : List (String × NodeId)) (witness : NodeId) : Rendered :=
  ⟨none, .roster (rows.map (·.1)), [.each witness (rows.map fun row => .entry row.1 row.2)]⟩

/-- A name that has been rendered can be diffed in silence. -/
theorem Rebuilding.listing_settled (σ : Stage Unit) : Rebuilding.listing.Settled 9999 ((Cursor.root Host.root).before ⟨3⟩)
    (.new (.plain [("text", [.str "a"])])) (.entry "a" ⟨1⟩) [] σ := by
  have hfirst : ∃ τ', Engine.renderWithin Behaviour.listing 9999 .plain (Cursor.root Host.root)
      (.new (.plain [("text", [.str "a"])])) ⟨.new, #[], ()⟩ = .ok (.entry "a" ⟨1⟩) τ' ∧ τ'.instances = #[] ∧
        τ'.host.mutations.toList.filterMap Mutation.property? = [] := ⟨_, rfl, rfl, rfl⟩
  obtain ⟨τ', hrender, hnone, hproperties⟩ := hfirst
  obtain ⟨_, ⟨calls, hcalls, rfl⟩, -⟩ := Rebuilding.within_settles 9999 (R := Rebuilding.listing)
    (c := Cursor.root Host.root) (by decide) hrender
  have hlog : τ'.host.mutations.toList = calls := hcalls.log
  rw [hlog] at hproperties
  exact ⟨⟨none, _, τ', hrender, by decide, ⟨calls, hcalls, hproperties⟩, ⟨trivial, by simp [hnone]⟩, by simp⟩,
    List.nodup_nil, by simp⟩

end Parlance
