import Ebnf.Proofs.Match.Course
import Ebnf.Proofs.Match.Derivation
import Ebnf.Proofs.Match.Termination

/-!
# The limit of levels

A match with a limit does what it does with a larger one, up to the application that is beyond the
limit, which gives up the whole match.  So a larger limit can only turn a fault into a result, and a
result stays as it is.  Only references go a level deeper, so the rule that a fault names is one
that was referred to by name.

## Main definitions

* `Match.Persists` — an outcome that is the same as another one, if that is a result.
* `Grammar.firstApplication` — the application with which a match begins.

## Main results

* `Match.persists_applyRule` — results stay with more room and more levels.
* `Grammar.exists_reference_of_tooDeep` — the application beyond the limit is that of a reference.
* `Grammar.matchWithin_of_limit_le` — **a larger limit only turns faults into results.**
-/

namespace Ebnf

open Match (Application applyRule)

namespace Match

/-! ### Results that stay -/

/-- The second outcome is the same as the first one, if that is a result. -/
def Persists (o o' : Outcome) : Prop := ∀ taken, o = .ok taken → o' = .ok taken

namespace Persists

theorem refl (o : Outcome) : Persists o o := fun _ h => h

theorem ofError (stop : Stop) (o : Outcome) : Persists (.error stop) o := nofun

/-- What goes on after a failure and after a span. -/
theorem bind {o o' failed failed' : Outcome} {go go' : Span → Outcome} : Persists o o' →
    Persists failed failed' → (∀ span, Persists (go span) (go' span)) →
    Persists
      (match o with
        | .error stop => .error stop
        | .ok none => failed
        | .ok (some span) => go span)
      (match o' with
        | .error stop => .error stop
        | .ok none => failed'
        | .ok (some span) => go' span) := by
  intro h hfailed hgo
  rcases o with stop | _ | span
  · exact ofError stop _
  · rw [h none rfl]
    exact hfailed
  · rw [h (some span) rfl]
    exact hgo span

/-- A repetition stays if all its rounds do. -/
theorem repeated {once once' : List Char → Outcome}
    (honce : ∀ text, Persists (once text) (once' text)) {text : List Char} {span : Span}
    (h : Match.repeated once text = .ok span) : Match.repeated once' text = .ok span := by
  -- induction on the length of the text, which every round but the last reduces
  induction hn : text.length using Nat.strongRecOn generalizing text span with
  | ind n ih =>
    rw [Match.repeated] at h
    split at h
    · cases h
    · -- a round that fails is the last one with either limit
      next hround =>
      cases h
      rw [Match.repeated, honce text none hround]
    · -- a round that takes something is followed by the others
      next first hround =>
      rw [Match.repeated, honce text (some first) hround]
      dsimp only
      split at h
      · next hlt =>
        rw [if_pos hlt]
        split at h
        · cases h
        · next hmore =>
          cases h
          rw [ih _ (hn ▸ hlt) hmore rfl]
      · next hlt =>
        cases h
        rw [if_neg hlt]

end Persists

end Match

section AnyEngine

variable [Pattern.Engine]

namespace Match

section

variable {apply apply' : Apply} {depth depth' : Nat}
  (h : ∀ k name text, Persists (apply (depth + k) name text) (apply' (depth' + k) name text))

include h

theorem persists_evalAtom (atom : Atom) (text : List Char) :
    Persists (evalAtom apply depth text atom) (evalAtom apply' depth' text atom) := by
  cases atom with
  | terminal expected => exact .refl _
  | pattern p => exact .refl _
  | reference name => exact (h 0 name text).bind (.refl _) fun _ => .refl _
  | lifted bracket rule =>
    cases bracket with
    | group => exact h 1 rule text
    | optional => exact (h 1 rule text).bind (.refl _) fun _ => .refl _
    | repetition =>
      intro taken htaken
      rw [evalAtom] at htaken ⊢
      split at htaken
      · cases htaken
      · next hrounds =>
        cases htaken
        rw [Persists.repeated (h 1 rule) hrounds]

theorem persists_evalAtoms : ∀ (atoms : Alternative) (text : List Char),
    Persists (evalAtoms apply depth atoms text) (evalAtoms apply' depth' atoms text) := by
  intro atoms
  induction atoms with
  | nil => exact fun _ => .refl _
  | cons atom rest ih =>
    intro text
    exact (persists_evalAtom h atom text).bind (.refl _) fun span =>
      (ih (span.after text)).bind (.refl _) fun _ => .refl _

theorem persists_evalAlternatives (alts : List Alternative) (text : List Char) :
    Persists (evalAlternatives apply depth alts text)
      (evalAlternatives apply' depth' alts text) := by
  induction alts with
  | nil => exact .refl _
  | cons alt rest ih => exact (persists_evalAtoms h alt text).bind ih fun _ => .refl _

end

/-- Results stay with more room and more levels. The induction is on the room, and every part of a
rule persists if its applications do. -/
theorem persists_applyRule (g : Grammar) : ∀ {nesting nesting' depth depth' : Nat},
    nesting ≤ nesting' → depth ≤ depth' → ∀ name text,
    Persists (applyRule g nesting depth name text) (applyRule g nesting' depth' name text) := by
  intro nesting
  induction nesting with
  -- without room or without a level nothing has a result
  | zero =>
    intro nesting' depth depth' _ _ name text
    cases depth with
    | zero => exact .ofError _ _
    | succ depth => exact .ofError _ _
  | succ nesting ih =>
    intro nesting' depth depth' hnesting hdepth name text
    match nesting', depth, depth' with
    | _, 0, _ => exact .ofError _ _
    -- with both, the rule is evaluated with one application less
    | nesting' + 1, depth + 1, depth' + 1 =>
      rw [applyRule, applyRule]
      split
      · exact .refl _
      · next r _ =>
        exact persists_evalAlternatives
          (fun k => ih (Nat.le_of_succ_le_succ hnesting) (by omega)) r.alts text

end Match

namespace Grammar

variable {g : Grammar} {a b : Application} {atom : Atom}

/-! ### Beyond the limit -/

/-- Only a reference makes an application that has no level left. -/
theorem MakesFor.eq_reference (h : g.MakesFor atom a b) (hdepth : b.depth = 0) :
    atom = .reference b.rule := by
  obtain ⟨_, _, happlies⟩ := h
  cases happlies with
  | reference => rfl
  | group => cases hdepth
  | optional => cases hdepth
  | repetition => cases hdepth

/-- An application that has a level left and is given up for one beyond the limit comes to a
reference for which that is made. -/
theorem exists_reference_of_tooDeep {name : String} (hdepth : a.depth ≠ 0)
    (h : a.outcome g = .error (.tooDeep name)) :
    ∃ c b, Relation.ReflTransGen g.Makes a c ∧ g.MakesFor (.reference name) c b ∧
      b.depth = 0 := by
  -- induction on the room for applications, of which every application leaves less
  induction hn : a.nesting using Nat.strongRecOn generalizing a with
  | ind n ih =>
    -- the application itself is stopped, or one that it makes is
    rcases exists_makes_of_outcome_eq_error h with
      ⟨hzero, -⟩ | ⟨-, hne⟩ | ⟨-, hne⟩ | ⟨atom, b, hfor, hstop⟩
    · exact absurd hzero hdepth
    · cases hne
    · cases hne
    · have hmakes : g.Makes a b := ⟨atom, hfor⟩
      -- that one has no level left, or it has one and makes another
      by_cases hzero : b.depth = 0
      · obtain ⟨nesting, _, rule, text⟩ := b
        obtain rfl : _ = 0 := hzero
        -- an application without a level is given up at once
        have hrefused : Application.outcome g ⟨nesting, 0, rule, text⟩
            = .error (.tooDeep rule) := by
          cases nesting <;> rfl
        rw [hrefused] at hstop
        cases hstop
        exact ⟨a, _, .refl, hfor.eq_reference rfl ▸ hfor, rfl⟩
      · obtain ⟨c, b', hreach, hreference, hlast⟩ :=
          ih b.nesting (by have := hmakes.nesting_eq; omega) hzero hstop rfl
        exact ⟨c, b', .head hmakes hreach, hreference, hlast⟩

/-! ### Matches -/

/-- The application with which a match begins: all levels and all room are left. -/
def firstApplication (nesting : Nat) (rule input : String) (maxDepth : Int) : Application :=
  ⟨nesting, maxDepth.toNat, rule, input.toList⟩

variable {nesting : Nat} {rule input : String} {maxDepth : Int}

/-- The result of a match is that of its first application. -/
theorem matchWithin_of_outcome (hrule : g.contains rule = true) (hdepth : 1 ≤ maxDepth)
    {taken : Option Match.Span}
    (h : (firstApplication nesting rule input maxDepth).outcome g = .ok taken) :
    g.matchWithin nesting rule input maxDepth = .ok (resultOf rule input.toList taken) := by
  rw [Application.outcome, firstApplication] at h
  rw [matchWithin, if_neg (by omega), hrule, h]
  rfl

/-- The fault of a match is that of its first application. -/
theorem matchWithin_of_tooDeep (hrule : g.contains rule = true) (hdepth : 1 ≤ maxDepth)
    {name : String}
    (h : (firstApplication nesting rule input maxDepth).outcome g = .error (.tooDeep name)) :
    g.matchWithin nesting rule input maxDepth = .error (.tooDeep name maxDepth) := by
  rw [Application.outcome, firstApplication] at h
  rw [matchWithin, if_neg (by omega), hrule, h]
  rfl

/-- A match is only beyond the limit if its first application is given up as too deep, or as too
many are open. -/
theorem outcome_of_matchWithin_eq_tooDeep {name : String} {limit : Int}
    (h : g.matchWithin nesting rule input maxDepth = .error (.tooDeep name limit)) :
    limit = maxDepth ∧ 1 ≤ maxDepth ∧ g.contains rule = true ∧
      ((firstApplication nesting rule input maxDepth).outcome g = .error (.tooDeep name) ∨
        (firstApplication nesting rule input maxDepth).outcome g = .error .tooNested) := by
  -- the tests that come before the first application report something else
  rw [matchWithin] at h
  split at h
  · cases h
  · next hdepth =>
    split at h
    · cases h
    · next hrule =>
      split at h
      · next hstop =>
        cases h
        exact ⟨rfl, by omega, by simpa using hrule, Or.inl hstop⟩
      · next hstop =>
        cases h
        exact ⟨rfl, by omega, by simpa using hrule, Or.inr hstop⟩
      · cases h
      · cases h

/-- A result stays the same with a larger limit. -/
theorem matchWithin_mono {maxDepth' : Int} (hle : maxDepth ≤ maxDepth') {result : MatchResult}
    (h : g.matchWithin nesting rule input maxDepth = .ok result) :
    g.matchWithin nesting rule input maxDepth' = .ok result := by
  obtain ⟨taken, happly, rfl⟩ := exists_of_matchWithin_eq_ok h
  have hdepth : 1 ≤ maxDepth := by
    by_contra hlt
    rw [matchWithin, if_pos (by omega)] at h
    cases h
  have hrule : g.contains rule = true := by
    by_contra hno
    rw [matchWithin, if_neg (by omega), if_pos (by simpa using hno)] at h
    cases h
  have hstays : (firstApplication nesting rule input maxDepth').outcome g = .ok taken :=
    Match.persists_applyRule g (Nat.le_refl nesting) (Int.toNat_le_toNat hle) rule
      input.toList taken happly
  exact matchWithin_of_outcome hrule (by omega) hstays

/-- **A larger limit only turns faults into results.**  A result of a match stays the same with any
larger limit, and a match that is beyond a limit is beyond every smaller one.  If an application
that the match makes anywhere has no level left, the match is beyond the limit, and the fault names
the rule of that application.  The other way round, a match beyond the limit makes an application
without a level left, of the rule that the fault names, and for a reference to that rule; unless
too many applications were open, which cannot be where there is room for as many on every level as
there are rules. -/
theorem matchWithin_of_limit_le {text : List Char} (h : compile text = .ok g)
    (hrule : g.contains rule = true) (nesting : Nat) (input : String) (hdepth : 1 ≤ maxDepth) :
    (∀ maxDepth', maxDepth ≤ maxDepth' → ∀ result,
      g.matchWithin nesting rule input maxDepth = .ok result →
      g.matchWithin nesting rule input maxDepth' = .ok result) ∧
    (∀ maxDepth', maxDepth ≤ maxDepth' → ∀ name,
      g.matchWithin nesting rule input maxDepth' = .error (.tooDeep name maxDepth') →
      ∃ name', g.matchWithin nesting rule input maxDepth = .error (.tooDeep name' maxDepth)) ∧
    (∀ b, Relation.ReflTransGen g.Makes (firstApplication nesting rule input maxDepth) b →
      b.depth = 0 →
      g.matchWithin nesting rule input maxDepth = .error (.tooDeep b.rule maxDepth)) ∧
    (∀ name limit, g.matchWithin nesting rule input maxDepth = .error (.tooDeep name limit) →
      limit = maxDepth ∧
      ((∃ c b, Relation.ReflTransGen g.Makes (firstApplication nesting rule input maxDepth) c ∧
          g.MakesFor (.reference name) c b ∧ b.depth = 0 ∧ b.rule = name) ∨
        applyRule g nesting maxDepth.toNat rule input.toList = .error .tooNested)) ∧
    (maxDepth.toNat * g.rules.length ≤ nesting →
      applyRule g nesting maxDepth.toNat rule input.toList ≠ .error .tooNested) := by
  have hg := Grammar.consistsOf_of_compile h
  refine ⟨fun maxDepth' hle result => matchWithin_mono hle, ?_, ?_, ?_, ?_⟩
  · -- beyond a larger limit a match cannot have a result with a smaller one
    intro maxDepth' hle name hfault
    rcases hg.isResolved.matchWithin_eq nesting hrule input hdepth with ⟨result, hresult⟩ | hfault'
    · rw [matchWithin_mono hle hresult] at hfault
      cases hfault
    · exact hfault'
  · -- an application without a level stops all that led to it
    intro b hreach hzero
    have hrefused : b.outcome g = .error (.tooDeep b.rule) := by
      rw [Application.outcome, hzero]
      cases b.nesting <;> rfl
    exact matchWithin_of_tooDeep hrule hdepth (outcome_eq_error_of_reflTransGen hreach hrefused)
  · -- what stops a match is followed down to the application it began with
    intro name limit hfault
    obtain ⟨rfl, -, -, hstop | hstop⟩ := outcome_of_matchWithin_eq_tooDeep hfault
    · -- this has no level left and is made for a reference
      refine ⟨rfl, Or.inl ?_⟩
      have hlevel : limit.toNat ≠ 0 := by omega
      obtain ⟨c, b, hreach, hfor, hzero⟩ := exists_reference_of_tooDeep hlevel hstop
      refine ⟨c, b, hreach, hfor, hzero, ?_⟩
      exact (Atom.reference.inj (hfor.eq_reference hzero)).symm
    · exact ⟨rfl, Or.inr hstop⟩
  · -- each level has at most one application for each rule
    intro hnesting
    exact hg.applyRule_ne_tooNested _ (contains_iff.mp hrule)
      (Nat.le_trans (weight_le _ _) hnesting)

end Grammar

end AnyEngine

namespace Grammar

attribute [local instance] Pattern.Engine.verbatim

/-- Lists in lists have a result with five levels, and so with nine; with four they are beyond the
limit, which names a rule that is referred to. -/
theorem matchWithin_of_limit_le_listText :
    listGrammar.matchWithin 40 "L" "((x))" 9
      = .ok ⟨true, "", .node "L" "((x))" [.node "I" "(x)" [.node "L" "(x)" [.node "I" "x" []]]]⟩ ∧
    ∃ c b, Relation.ReflTransGen listGrammar.Makes (firstApplication 40 "L" "((x))" 4) c ∧
      listGrammar.MakesFor (.reference "L") c b ∧ b.depth = 0 := by
  have hresult : listGrammar.matchWithin 40 "L" "((x))" 5
      = .ok ⟨true, "", .node "L" "((x))"
          [.node "I" "(x)" [.node "L" "(x)" [.node "I" "x" []]]]⟩ := by
    cbv
  have hfault : listGrammar.matchWithin 40 "L" "((x))" 4 = .error (.tooDeep "L" 4) := by cbv
  have hrule : listGrammar.contains "L" = true := rfl
  obtain ⟨hmono, -⟩ :=
    matchWithin_of_limit_le compile_listText hrule 40 "((x))" (by decide : (1 : Int) ≤ 5)
  obtain ⟨-, -, -, hnamed, hroom⟩ :=
    matchWithin_of_limit_le compile_listText hrule 40 "((x))" (by decide : (1 : Int) ≤ 4)
  obtain ⟨c, b, hreach, hfor, hzero, -⟩ :=
    (hnamed "L" 4 hfault).2.resolve_right (hroom (by decide))
  exact ⟨hmono 9 (by decide) _ hresult, c, b, hreach, hfor, hzero⟩

end Grammar

end Ebnf
