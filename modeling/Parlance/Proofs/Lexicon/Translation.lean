import Parlance.Proofs.Lexicon.Spelling

/-! Translation to the atomic level. A lexem whose namespace belongs to the chain and whose name is found as a compound
is applied anew, with its arguments translated; every other lexem is copied. Where no word is redefined along the
chain, what comes of words of the chain is these words, spelt out. -/

namespace Parlance

namespace Lexicon

/-- Whether translation applies a lexem anew: its namespace belongs to the chain, and its name is found as a
compound. -/
def expands (d : Lexicon) (space name : String) : Bool := d.owns space && d.develops name

variable {ω : Type} (i : Interpreter ω) (d : Lexicon)

/-- What translation does to a sentence for one lexem whose arguments are translated. -/
def say (out : Sentence) (space name : String) (args : List Arg) : Act ω Sentence :=
  match d.resolve name with
  | some (owner, .compound body) =>
      if d.owns space then (Word.compound body).apply i owner out name args else pure (out.append space name args)
  | _ => pure (out.append space name args)

variable {i d} {space name : String} {args : List Arg} {out : Sentence}

theorem translateLexems_cons {level : Level} {lexems : List Lexem} :
    d.translateLexems i level out (⟨space, name, args⟩ :: lexems) = (do
      let args ← d.translateArgs i level args
      let out ← d.say i out space name args
      d.translateLexems i level out lexems) := by
  rw [translateLexems]
  refine bind_congr fun args => ?_
  rw [say]
  cases d.resolve name with
  | none => rfl
  | some found =>
      obtain ⟨owner, _ | body | body⟩ := found
      · rfl
      · dsimp only
        split <;> rfl
      · rfl

theorem say_kept (hkept : d.expands space name = false) :
    d.say i out space name args = pure (out.append space name args) := by
  rw [expands, develops, kindOf] at hkept
  rw [say]
  cases hresolve : d.resolve name with
  | none => rfl
  | some found =>
      rw [hresolve] at hkept
      obtain ⟨owner, _ | body | body⟩ := found
      · rfl
      · dsimp only
        rw [if_neg]
        simpa [Word.kind] using hkept
      · rfl

theorem say_expanded (hexpands : d.expands space name = true) :
    ∃ owner body, d.resolve name = some (owner, .compound body) ∧ ∀ (out : Sentence) (args : List Arg),
      d.say i out space name args = (Word.compound body).apply i owner out name args := by
  rw [expands, Bool.and_eq_true, develops, kindOf, decide_eq_true_eq, Option.map_eq_some_iff] at hexpands
  obtain ⟨howns, ⟨owner, _ | body | _⟩, hresolve, hkind⟩ := hexpands
  · cases hkind
  · refine ⟨owner, body, hresolve, fun out args => ?_⟩
    rw [say, hresolve]
    exact if_pos howns
  · cases hkind

end Lexicon

mutual

/-- Whether the lexems in an argument are words of a chain, however deep. -/
def Arg.isNative (d : Lexicon) : Arg → Bool
  | .sentence _ ⟨_, _, lexems⟩ => lexemsNative d lexems
  | .list _ items => argsNative d items
  | _ => true

def argsNative (d : Lexicon) : List Arg → Bool
  | [] => true
  | a :: as => a.isNative d && argsNative d as

/-- Whether every lexem is a word that the lexicon of its namespace, one of the chain, defines. -/
def lexemsNative (d : Lexicon) : List Lexem → Bool
  | [] => true
  | ⟨space, name, args⟩ :: ls =>
      d.chain.any (fun owner => owner.name = space && (owner.words.get? name).isSome) && argsNative d args &&
        lexemsNative d ls

end

/-- A word of the chain that the lexicon finds is the one that its namespace defines. -/
theorem Lexicon.Expandable.own_of_native {d : Lexicon} (hd : d.Expandable) {space name : String} {owner : Lexicon}
    {word : Word} (hresolve : d.resolve name = some (owner, word))
    (hnative : d.chain.any (fun owner => owner.name = space && (owner.words.get? name).isSome) = true) :
    owner.name = space := by
  obtain ⟨o, ho, hown⟩ := List.any_eq_true.mp hnative
  rw [Bool.and_eq_true, decide_eq_true_eq, Option.isSome_iff_exists] at hown
  obtain ⟨rfl, word', hword'⟩ := hown
  obtain ⟨howner, hword⟩ := Lexicon.resolve_eq_some hresolve
  rw [Lexicon.owner_unique hd.words howner ho hword hword']

/-- A sentence that has got lexems one after the other is as if it had got them together. -/
theorem Lengthened.cons {ctx : Context} {d l : Lexicon} {level : Level} {out next last : Sentence} {lexem : Lexem}
    {ls : List Lexem} (hnext : Lengthened ctx d (Sentence.empty l level) out ⟨l, level, [lexem]⟩ next)
    (hlast : Lengthened ctx d (Sentence.empty l level) next ⟨l, level, ls⟩ last) :
    Lengthened ctx d (Sentence.empty l level) out ⟨l, level, lexem :: ls⟩ last := by
  obtain ⟨added, added', hadded, rfl, hspelt⟩ := hnext
  obtain ⟨more, more', hmore, rfl, hrest⟩ := hlast
  obtain rfl : added = [lexem] := (congrArg Sentence.lexems hadded).symm
  obtain rfl : more = ls := (congrArg Sentence.lexems hmore).symm
  exact ⟨lexem :: more, added' ++ more', rfl, by simp, hspelt.append hrest⟩

section Translation

variable {ctx : Context} {d : Lexicon}

/-- Identities can be drawn at any depth. -/
theorem Script.fresh_yields {stop : Trouble → Prop} (depth : Nat) :
    Yields stop (fun _ => True) (Script.interpreterWithin ctx depth).fresh := by
  cases depth <;> exact fun _ => .inl ⟨_, _, rfl, trivial⟩

/-- A lexem of the chain is applied anew or copied, and either way it is spelt out. -/
theorem say_spelt (hd : d.Expandable) {space name : String} {args args' : List Arg} {out : Sentence}
    (hout : out.lexicon = d) (hlevel : out.level = .atomic) (hargs : List.Forall₂ (ArgSpelt ctx d) args args')
    (hnative : d.chain.any (fun owner => owner.name = space && (owner.words.get? name).isSome) = true) :
    Yields (· = .exhausted)
      (Lengthened ctx d (Sentence.empty d .firstLevel) out ⟨d, .firstLevel, [⟨space, name, args⟩]⟩)
      (d.say (Script.interpreter ctx) out space name args') := by
  cases hexpands : d.expands space name with
  | false =>
      rw [Lexicon.say_kept hexpands]
      exact .pure (.append hargs)
  | true =>
      obtain ⟨owner, body, hresolve, hsay⟩ := Lexicon.say_expanded (i := Script.interpreter ctx) hexpands
      obtain ⟨howner, hword⟩ := Lexicon.resolve_eq_some hresolve
      obtain rfl := hd.own_of_native hresolve hnative
      have hplain := (hd.bodies owner howner).plain hword rfl
      have hconcurs : ∀ name ∈ wordsCalled body.calls, owner.Concurs out.lexicon name := fun name hname =>
        hout.symm ▸ hd.concurs_inherited d.mem_chain_self howner (known_of_wordsCalled hplain hname)
      rw [hsay, Word.apply, hlevel]
      exact .of_agrees (compound_spelt (Script.interpreter_spelt ctx hd) hlevel hconcurs howner hword hplain hargs)

mutual

/-- What translating lexems adds to a sentence are these lexems, spelt out. -/
theorem translateLexems_spelt (hd : d.Expandable) : ∀ (lexems : List Lexem) {out : Sentence}, out.lexicon = d →
    out.level = .atomic → lexemsNative d lexems = true → lexemsSpoken lexems = true →
    Yields (· = .exhausted) (Lengthened ctx d (Sentence.empty d .firstLevel) out ⟨d, .firstLevel, lexems⟩)
      (d.translateLexems (Script.interpreter ctx) .atomic out lexems)
  | [], out, _, _, _, _ => by
      rw [Lexicon.translateLexems]
      exact .pure (.refl _ out)
  | ⟨space, name, args⟩ :: lexems, out, hout, hlevel, hnative, hspoken => by
      rw [lexemsNative, Bool.and_eq_true, Bool.and_eq_true] at hnative
      rw [lexemsSpoken, Bool.and_eq_true] at hspoken
      rw [Lexicon.translateLexems_cons]
      refine (translateArgs_spelt hd args hnative.1.2 hspoken.1).bind fun args' hargs =>
        (say_spelt hd hout hlevel hargs hnative.1.1).bind fun next hnext => ?_
      exact (translateLexems_spelt hd lexems (hnext.lexicon_eq.2.trans hout) (hnext.level_eq.trans hlevel) hnative.2
        hspoken.2).mono fun _ hlast => hnext.cons hlast

theorem translateArgs_spelt (hd : d.Expandable) : ∀ args : List Arg, argsNative d args = true → argsSpoken args = true →
    Yields (· = .exhausted) (List.Forall₂ (ArgSpelt ctx d) args)
      (d.translateArgs (Script.interpreter ctx) .atomic args)
  | [], _, _ => by
      rw [Lexicon.translateArgs]
      exact .pure .nil
  | a :: as, hnative, hspoken => by
      rw [argsNative, Bool.and_eq_true] at hnative
      rw [argsSpoken, Bool.and_eq_true] at hspoken
      rw [Lexicon.translateArgs]
      exact (translateArg_spelt hd a hnative.1 hspoken.1).bind fun _ ha =>
        (translateArgs_spelt hd as hnative.2 hspoken.2).bind fun _ has => .pure (.cons ha has)

theorem translateArg_spelt (hd : d.Expandable) : ∀ a : Arg, a.isNative d = true → a.isSpoken = true →
    Yields (· = .exhausted) (ArgSpelt ctx d a) (d.translateArg (Script.interpreter ctx) .atomic a)
  | .sentence _ ⟨_, _, lexems⟩, hnative, hspoken => by
      rw [Lexicon.translateArg, Lexicon.translate]
      refine (translateLexems_spelt hd lexems rfl rfl hnative hspoken).bind fun s hs => ?_
      exact (Script.fresh_yields _).bind fun _ _ => .pure (.sentence hs.lexems)
  | .list _ items, hnative, hspoken => by
      rw [Lexicon.translateArg]
      exact (translateArgs_spelt hd items hnative hspoken).bind fun _ hitems =>
        (Script.fresh_yields _).bind fun _ _ => .pure (.list hitems)
  | .null, _, _ => .pure .null
  | .bool _, _, _ => .pure .bool
  | .number _, _, _ => .pure .number
  | .str _, _, _ => .pure .str
  | .data _, _, _ => .pure .data
  | .handler _, _, _ => .pure .handler
  | .callback _, _, _ => .pure .callback

end

end Translation

end Parlance
