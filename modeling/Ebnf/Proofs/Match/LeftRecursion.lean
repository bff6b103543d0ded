import Ebnf.Proofs.Match.DepthLimit

/-!
# Left recursion

Which applications are made in the course of one depends on its rule and its place in the text, and
not on the levels that are left, as long as these do not run out.  So if a rule is applied again at
the same place in the course of its own application, this happens again and again, and no number of
levels is enough: whatever brackets, empty pieces, other rules and failed alternatives lie between.

## Main definitions

* `Grammar.Reenters` — a rule is applied again at the same place.
* `Grammar.cycleText`, `Grammar.cycleGrammar` — a left recursion behind a bracket and another rule.

## Main results

* `Match.taken_eq` — results do not depend on the room and the levels.
* `Grammar.MakesWithin.again` — applications that are made are made with any levels that suffice.
* `Grammar.tooDeep_of_reenters` — **left recursion ends beyond the limit.**
-/

namespace Ebnf

open Match (Application AppliesAt AtomAt AtomAmong RoundAt applyRule evalAtom evalAtoms
  evalAlternatives)

section AnyEngine

variable [Pattern.Engine]

namespace Match

variable {g : Grammar} {nesting nesting' depth depth' : Nat}

/-! ### Results do not depend on the limits -/

theorem taken_eq {name : String} {text : List Char} {taken taken' : Option Span}
    (h : applyRule g nesting depth name text = .ok taken)
    (h' : applyRule g nesting' depth' name text = .ok taken') : taken = taken' := by
  -- both stay when there is as much room and as many levels as in either
  have hmax := persists_applyRule g (Nat.le_max_left nesting nesting')
    (Nat.le_max_left depth depth') name text taken h
  have hmax' := persists_applyRule g (Nat.le_max_right nesting nesting')
    (Nat.le_max_right depth depth') name text taken' h'
  exact Except.ok.inj (hmax.symm.trans hmax')

/-- The parts of a rule find the same results in the applications with more levels. -/
theorem persists_applyRule_add {nesting nesting' depth depth' : Nat} (hnesting : nesting ≤ nesting')
    (hdepth : depth ≤ depth') (k : Nat) (name : String) (text : List Char) :
    Persists (applyRule g nesting (depth + k) name text)
      (applyRule g nesting' (depth' + k) name text) :=
  persists_applyRule g hnesting (Nat.add_le_add_right hdepth k) name text

theorem taken_eq_of_evalAtom {atom : Atom} {text : List Char} {taken taken' : Option Span}
    (h : evalAtom (applyRule g nesting) depth text atom = .ok taken)
    (h' : evalAtom (applyRule g nesting') depth' text atom = .ok taken') : taken = taken' := by
  have hmax := persists_evalAtom (persists_applyRule_add (Nat.le_max_left nesting nesting')
    (Nat.le_max_left depth depth')) atom text taken h
  have hmax' := persists_evalAtom (persists_applyRule_add (Nat.le_max_right nesting nesting')
    (Nat.le_max_right depth depth')) atom text taken' h'
  exact Except.ok.inj (hmax.symm.trans hmax')

theorem taken_eq_of_evalAtoms {atoms : Alternative} {text : List Char}
    {taken taken' : Option Span}
    (h : evalAtoms (applyRule g nesting) depth atoms text = .ok taken)
    (h' : evalAtoms (applyRule g nesting') depth' atoms text = .ok taken') : taken = taken' := by
  have hmax := persists_evalAtoms (persists_applyRule_add (Nat.le_max_left nesting nesting')
    (Nat.le_max_left depth depth')) atoms text taken h
  have hmax' := persists_evalAtoms (persists_applyRule_add (Nat.le_max_right nesting nesting')
    (Nat.le_max_right depth depth')) atoms text taken' h'
  exact Except.ok.inj (hmax.symm.trans hmax')

/-! ### The same course with other limits -/

/-- What is come to with some limits is come to with others that suffice, and has a result there. -/
theorem RoundAt.again {name : String} {text text' : List Char} {span : Span}
    (h : RoundAt (applyRule g nesting depth name) text text')
    (hok : repeated (applyRule g nesting' depth' name) text = .ok span) :
    RoundAt (applyRule g nesting' depth' name) text text' ∧
      ∃ taken, applyRule g nesting' depth' name text' = .ok taken := by
  -- induction on the rounds before the place
  induction h generalizing span with
  | first text =>
    rcases hround : applyRule g nesting' depth' name text with stop | taken
    · rw [repeated, hround] at hok
      cases hok
    · exact ⟨.first text, taken, rfl⟩
  -- a round before it ends where it did with the other limits
  | next hround hlt _ ih =>
    rw [repeated] at hok
    split at hok
    · cases hok
    · next hnone => cases taken_eq hround hnone
    · next hround' =>
      cases taken_eq hround hround'
      rw [if_pos hlt] at hok
      split at hok
      · cases hok
      · next hmore =>
        obtain ⟨hat, htaken⟩ := ih hmore
        exact ⟨.next hround' hlt hat, htaken⟩

/-- What is applied with some levels and some room is applied with any others that lead to a result,
and has a result there too. -/
theorem AppliesAt.again {atom : Atom} {level : Nat} {name : String} {text text' : List Char}
    {taken : Option Span} (h : AppliesAt (applyRule g nesting) depth text atom level name text')
    (hok : evalAtom (applyRule g nesting') depth' text atom = .ok taken) :
    ∃ level', AppliesAt (applyRule g nesting') depth' text atom level' name text' ∧
      ∃ taken, applyRule g nesting' level' name text' = .ok taken := by
  cases h with
  | reference =>
    -- the application is made where the atom begins, one level deeper
    refine ⟨depth', .reference name, ?_⟩
    rw [evalAtom] at hok
    split at hok
    · cases hok
    · next happly => exact ⟨_, happly⟩
    · next happly => exact ⟨_, happly⟩
  -- a bracket makes it on the level at hand
  | group => exact ⟨depth' + 1, .group name, _, hok⟩
  | optional =>
    refine ⟨depth' + 1, .optional name, ?_⟩
    rw [evalAtom] at hok
    split at hok
    · cases hok
    · next happly => exact ⟨_, happly⟩
    · next happly => exact ⟨_, happly⟩
  -- a repetition makes it in one of its rounds
  | repetition h =>
    rw [evalAtom] at hok
    split at hok
    · cases hok
    · next hrounds =>
      obtain ⟨hat, htaken⟩ := h.again hrounds
      exact ⟨depth' + 1, .repetition hat, htaken⟩

theorem AtomAt.again {atoms : Alternative} {atom : Atom} {text text' : List Char}
    {taken : Option Span} (h : AtomAt (applyRule g nesting) depth atoms text atom text')
    (hok : evalAtoms (applyRule g nesting') depth' atoms text = .ok taken) :
    AtomAt (applyRule g nesting') depth' atoms text atom text' ∧
      ∃ taken, evalAtom (applyRule g nesting') depth' text' atom = .ok taken := by
  -- induction on the atoms before the place
  induction h generalizing taken with
  | head atom rest text =>
    rcases hatom : evalAtom (applyRule g nesting') depth' text atom with stop | found
    · rw [evalAtoms, hatom] at hok
      cases hok
    · exact ⟨.head atom rest text, found, rfl⟩
  | tail hfirst _ ih =>
    rw [evalAtoms] at hok
    split at hok
    · cases hok
    · next hnone => cases taken_eq_of_evalAtom hfirst hnone
    · -- those before it end where they did with the other limits
      next hfirst' =>
      cases taken_eq_of_evalAtom hfirst hfirst'
      split at hok
      · cases hok
      · next hrest =>
        obtain ⟨hat, htaken⟩ := ih hrest
        exact ⟨.tail hfirst' hat, htaken⟩
      · next hrest =>
        obtain ⟨hat, htaken⟩ := ih hrest
        exact ⟨.tail hfirst' hat, htaken⟩

theorem AtomAmong.again {alts : List Alternative} {atom : Atom} {text text' : List Char}
    {taken : Option Span} (h : AtomAmong (applyRule g nesting) depth text alts atom text')
    (hok : evalAlternatives (applyRule g nesting') depth' alts text = .ok taken) :
    AtomAmong (applyRule g nesting') depth' text alts atom text' ∧
      ∃ taken, evalAtom (applyRule g nesting') depth' text' atom = .ok taken := by
  -- induction on the alternatives before the one with the place
  induction h generalizing taken with
  | head rest h =>
    rw [evalAlternatives] at hok
    split at hok
    · cases hok
    · next halt =>
      obtain ⟨hat, htaken⟩ := h.again halt
      exact ⟨.head rest hat, htaken⟩
    · next halt =>
      obtain ⟨hat, htaken⟩ := h.again halt
      exact ⟨.head rest hat, htaken⟩
  -- those before it fail as they did with the other limits
  | tail halt _ ih =>
    rw [evalAlternatives] at hok
    split at hok
    · cases hok
    · next halt' =>
      obtain ⟨hat, htaken⟩ := ih hok
      exact ⟨.tail halt' hat, htaken⟩
    · next halt' => cases taken_eq_of_evalAtoms halt halt'

end Match

namespace Grammar

variable {g : Grammar} {a a' b : Application} {taken : Option Match.Span}

/-- Applications that are made are made with any other levels and room that lead to a result, and
have a result there too. -/
theorem Makes.again (h : g.Makes a b) (hrule : a'.rule = a.rule) (htext : a'.text = a.text)
    (hok : a'.outcome g = .ok taken) : ∃ b', g.Makes a' b' ∧ b'.rule = b.rule ∧
      b'.text = b.text ∧ ∃ taken, b'.outcome g = .ok taken := by
  obtain ⟨atom, ⟨hfind, hat, happlies⟩⟩ := h
  obtain ⟨nesting, depth, rule, text⟩ := a'
  obtain rfl : rule = _ := hrule
  obtain rfl : text = _ := htext
  rw [Application.outcome] at hok
  cases nesting with
  | zero => cases depth <;> cases hok
  | succ nesting =>
    cases depth with
    | zero => cases hok
    | succ depth =>
      rw [applyRule, hfind] at hok
      obtain ⟨hat', _, hatom⟩ := hat.again hok
      obtain ⟨level, happlies', hfound⟩ := happlies.again hatom
      exact ⟨⟨nesting, level, _, _⟩, ⟨atom, .of_rule hfind hat' happlies'⟩, rfl, rfl, hfound⟩

/-- Applications that are made are made with any levels that suffice. -/
theorem MakesWithin.again (h : g.MakesWithin a b) (hrule : a'.rule = a.rule)
    (htext : a'.text = a.text) (hok : a'.outcome g = .ok taken) :
    ∃ b', g.MakesWithin a' b' ∧ b'.rule = b.rule ∧ b'.text = b.text ∧
      ∃ taken, b'.outcome g = .ok taken := by
  induction h with
  | single hmakes =>
    obtain ⟨b', hmakes', hsame⟩ := hmakes.again hrule htext hok
    exact ⟨b', .single hmakes', hsame⟩
  | tail _ hmakes ih =>
    obtain ⟨c', hwithin, hrule', htext', _, hok'⟩ := ih
    obtain ⟨b', hmakes', hsame⟩ := hmakes.again hrule' htext' hok'
    exact ⟨b', hwithin.tail hmakes', hsame⟩

theorem MakesWithin.nesting_lt (h : g.MakesWithin a b) : b.nesting < a.nesting := by
  induction h with
  | single hmakes => exact hmakes.nesting_eq ▸ Nat.lt_succ_self _
  | tail _ hmakes ih =>
    have := hmakes.nesting_eq
    omega

theorem MakesWithin.isSuffix (h : g.MakesWithin a b) : b.text <:+ a.text := by
  induction h with
  | single hmakes => exact hmakes.isSuffix
  | tail _ hmakes ih => exact hmakes.isSuffix.trans ih

/-! ### Rules applied again -/

/-- In the course of the application its rule is applied again where as much of the text is left,
that is at the same place. -/
def Reenters (g : Grammar) (a : Application) : Prop :=
  ∃ b, g.MakesWithin a b ∧ b.rule = a.rule ∧ b.text.length = a.text.length

/-- No application of a rule that is applied again at the same place has a result. -/
theorem Reenters.outcome_ne_ok (h : g.Reenters a) : ∀ {a' : Application}, a'.rule = a.rule →
    a'.text = a.text → ∀ taken, a'.outcome g ≠ .ok taken := by
  obtain ⟨b, hwithin, hrule, hlength⟩ := h
  have htext : b.text = a.text := hwithin.isSuffix.eq_of_length hlength
  -- one with a result makes another one with a result, for which there is less room
  intro a' hrule' htext' taken hok
  induction hn : a'.nesting using Nat.strongRecOn generalizing a' taken with
  | ind n ih =>
    obtain ⟨b', hwithin', hsame, hplace, found, hfound⟩ := hwithin.again hrule' htext' hok
    exact ih b'.nesting (hn ▸ hwithin'.nesting_lt) (hsame.trans hrule) (hplace.trans htext) found
      hfound rfl

theorem Reenters.rule_mem (h : g.Reenters a) : a.rule ∈ g.names := by
  obtain ⟨b, hwithin, -⟩ := h
  obtain ⟨_, ⟨_, hfind, -, -⟩, -⟩ := Relation.TransGen.head'_iff.mp hwithin
  obtain ⟨hr, rfl⟩ := mem_of_find?_eq_some hfind
  exact List.mem_map_of_mem hr

/-- **Left recursion ends beyond the limit.**  If in the course of an application its rule is
applied again at the same place, no application of the rule there has a result, with whatever
levels; where there is room for as many applications on every level as there are rules, it is given
up as too deep.  A match that makes such an application anywhere is beyond its limit, whatever that
is.  The other way round, a match that has a result makes no such application. -/
theorem tooDeep_of_reenters {text : List Char} (h : compile text = .ok g) :
    (∀ a, g.Reenters a →
      (∀ nesting depth, ∃ stop, applyRule g nesting depth a.rule a.text = .error stop) ∧
      (∀ nesting depth, depth * g.rules.length ≤ nesting →
        ∃ name, applyRule g nesting depth a.rule a.text = .error (.tooDeep name)) ∧
      ∀ nesting rule input maxDepth c, g.contains rule = true → 1 ≤ maxDepth →
        Relation.ReflTransGen g.Makes (firstApplication nesting rule input maxDepth) c →
        c.rule = a.rule → c.text = a.text →
        ∃ name, g.matchWithin nesting rule input maxDepth = .error (.tooDeep name maxDepth)) ∧
    (∀ nesting rule input maxDepth result,
      g.matchWithin nesting rule input maxDepth = .ok result →
      ∀ c, Relation.ReflTransGen g.Makes (firstApplication nesting rule input maxDepth) c →
        ¬g.Reenters c) := by
  have hg := Grammar.consistsOf_of_compile h
  -- applied again where the application is made, the rule never has a result
  have hgiven : ∀ a, g.Reenters a → ∀ {c : Application}, c.rule = a.rule → c.text = a.text →
      ∃ stop, c.outcome g = .error stop := by
    intro a hre c hrule htext
    rcases hc : c.outcome g with stop | taken
    · exact ⟨stop, rfl⟩
    · exact absurd hc (hre.outcome_ne_ok hrule htext taken)
  refine ⟨fun a hre => ⟨?_, ?_, ?_⟩, ?_⟩
  · -- so the application has none
    exact fun nesting depth => hgiven a hre (c := ⟨nesting, depth, a.rule, a.text⟩) rfl rfl
  · -- with room for all applications it can only be too deep
    intro nesting depth hnesting
    obtain ⟨stop, hstop⟩ := hgiven a hre (c := ⟨nesting, depth, a.rule, a.text⟩) rfl rfl
    rw [Application.outcome] at hstop
    cases stop with
    | tooDeep name => exact ⟨name, hstop⟩
    | tooNested =>
      exact absurd hstop (hg.applyRule_ne_tooNested _ hre.rule_mem
        (Nat.le_trans (weight_le _ _) hnesting))
    | missingRule name =>
      exact absurd hstop (hg.isResolved.applyRule_ne_missingRule _ hre.rule_mem)
  · -- a match that makes it is stopped with it
    intro nesting rule input maxDepth c hcontains hdepth hreach hrule htext
    obtain ⟨stop, hstop⟩ := hgiven a hre hrule htext
    have hfirst := outcome_eq_error_of_reflTransGen hreach hstop
    refine (hg.isResolved.matchWithin_eq nesting hcontains input hdepth).resolve_left ?_
    rintro ⟨result, hresult⟩
    obtain ⟨taken, happly, -⟩ := exists_of_matchWithin_eq_ok hresult
    cases happly.symm.trans hfirst
  · -- a match with a result makes no such application
    intro nesting rule input maxDepth result hresult c hreach hre
    obtain ⟨stop, hstop⟩ := hgiven c hre rfl rfl
    have hfirst := outcome_eq_error_of_reflTransGen hreach hstop
    obtain ⟨taken, happly, -⟩ := exists_of_matchWithin_eq_ok hresult
    cases happly.symm.trans hfirst

end Grammar

end AnyEngine

namespace Grammar

attribute [local instance] Pattern.Engine.verbatim

/-- A rule that comes back to itself behind a bracket that may be left out and another rule. -/
def cycleText : List Char :=
  ['A', '=', '[', '"', 'a', '"', ']', ',', 'B', ';', 'B', '=', 'A', '|', '"', 'b', '"']

/-- The grammar of the text: two rules that refer to each other behind a bracket, which need not
take anything. -/
def cycleGrammar : Grammar :=
  { rules := [
      ⟨"A", [[.lifted .optional "ASubDef1", .reference "B"]], "A=[\"a\"],B", none, none⟩,
      ⟨"ASubDef1", [[.terminal "a"]], "ASubDef1=\"a\"", some "A", some "optional"⟩,
      ⟨"B", [[.reference "A"], [.terminal "b"]], "B=A|\"b\"", none, none⟩]
    nodeTypes := ["A", "B"] }

theorem compile_cycleText : compile cycleText = .ok cycleGrammar :=
  compile_eq_ok_iff.mpr
    ⟨[['A', '=', '[', '"', 'a', '"', ']', ',', 'B'], ['B', '=', 'A', '|', '"', 'b', '"']],
      ⟨["A", "B"], cycleGrammar.rules.map Rule.slot, [("A", 1)]⟩, by cbv, by cbv, rfl⟩

theorem reenters_cycleGrammar : cycleGrammar.Reenters ⟨9, 2, "A", ['b']⟩ := by
  have hbracket : evalAtom (applyRule cycleGrammar 8) 1 ['b'] (.lifted .optional "ASubDef1")
      = .ok (some .nothing) := by
    rfl
  have hother : cycleGrammar.Makes ⟨9, 2, "A", ['b']⟩ ⟨8, 1, "B", ['b']⟩ :=
    ⟨.reference "B", .of_rule rfl (.head _ (.tail hbracket (.head _ _ _))) (.reference "B")⟩
  have hagain : cycleGrammar.Makes ⟨8, 1, "B", ['b']⟩ ⟨7, 0, "A", ['b']⟩ :=
    ⟨.reference "A", .of_rule rfl (.head _ (.head _ _ _)) (.reference "A")⟩
  exact ⟨_, .tail (.single hother) hagain, rfl, rfl⟩

theorem tooDeep_of_reenters_cycleText :
    (∃ name, applyRule cycleGrammar 3000 1000 "A" ['b'] = .error (.tooDeep name)) ∧
      ∃ name, cycleGrammar.matchWithin 800 "A" "b" 250 = .error (.tooDeep name 250) := by
  obtain ⟨-, hroom, hmatch⟩ := (tooDeep_of_reenters compile_cycleText).1 _ reenters_cycleGrammar
  exact ⟨hroom 3000 1000 (by decide),
    hmatch 800 "A" "b" 250 _ rfl (by decide) .refl rfl rfl⟩

end Grammar

end Ebnf
