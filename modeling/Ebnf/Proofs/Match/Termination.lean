import Ebnf.Match
import Ebnf.Proofs.Grammar.Brackets
import Ebnf.Proofs.Match.Course

/-!
# Matching ends

A rule referred to by name is applied one level deeper, and the rule of a bracket, at the same
level, stands later in the grammar.  So along a chain of applications the levels left and the rank
of the rule together get less and less, and the number of applications that can be open at a time
is bounded.  A repetition ends because every round but the last takes something.

## Main definitions

* `Grammar.Calls` — one application of a rule makes another.
* `Grammar.weight` — what every application has less of than the one that makes it.
* `Grammar.Encloses` — a rule with a bracket and the rule of the bracket.
* `Grammar.Resolved` — every rule that a rule refers to exists.
* `Match.loop` — a repetition whose rounds are counted.

## Main results

* `Grammar.ConsistsOf.weight_lt` — applications get lighter.
* `Grammar.Resolved.applyRule_ne_missingRule` — no rule that is applied is missing.
* `Grammar.ConsistsOf.applyRule_ne_tooNested` — the weight bounds the open applications.
* `Match.loop_eq_repeated` — a repetition needs at most one round more than there are characters.
* `Grammar.matchWithin_terminates` — **matching ends.**
-/

namespace Ebnf

open Match (Application Applies applyRule)

section AnyEngine

variable [Pattern.Engine]

/-! ### Chains of applications -/

/-- `g.Calls callee caller` says that to apply a rule with a number of levels left may be to apply
another rule with the levels left then. -/
inductive Grammar.Calls (g : Grammar) : Nat × String → Nat × String → Prop
  /-- An application is made for an atom of the rule that is applied. -/
  | of_atom {depth depth' : Nat} {name name' : String} {r : Rule} {atom : Atom}
    (hfind : g.find? name = some r) (hatom : atom ∈ r.alts.flatten)
    (happlies : Applies depth atom depth' name') :
    Calls g (depth', name') (depth + 1, name)

/-- An upper bound for the number of applications open at a time from one on.  With no level left
the application is refused. -/
def Grammar.weight (g : Grammar) : Nat × String → Nat
  | (0, _) => 0
  | (depth + 1, name) => depth * g.rules.length + Rule.rank g.rules name

/-- The second rule is that of a bracket in the first. -/
def Grammar.Encloses (g : Grammar) (name name' : String) : Prop :=
  ∃ r, g.find? name = some r ∧ ∃ kind, (kind, name') ∈ r.brackets

/-- Every rule that a rule refers to exists, which checking the references makes sure of. -/
def Grammar.Resolved (g : Grammar) : Prop :=
  ∀ r ∈ g.rules, ∀ name ∈ r.references, name ∈ g.names

namespace Grammar

variable {g : Grammar}

theorem mem_of_find?_eq_some {name : String} {r : Rule} (h : g.find? name = some r) :
    r ∈ g.rules ∧ r.name = name :=
  ⟨List.mem_of_find?_eq_some h, by simpa using List.find?_some h⟩

theorem contains_iff {name : String} : g.contains name = true ↔ name ∈ g.names := by
  simp [contains, names]

theorem exists_find?_of_mem_names {name : String} (h : name ∈ g.names) :
    ∃ r, g.find? name = some r := by
  obtain ⟨r, hr, hname⟩ := List.mem_map.mp h
  exact Option.isSome_iff_exists.mp (List.find?_isSome.mpr ⟨r, hr, by simpa using hname⟩)

theorem weight_le (depth : Nat) (name : String) :
    g.weight (depth, name) ≤ depth * g.rules.length := by
  cases depth with
  | zero => exact Nat.zero_le _
  | succ depth =>
    rw [weight, Nat.succ_mul]
    exact Nat.add_le_add_left (Rule.rank_le_length _ _) _

theorem weight_pos {depth : Nat} {name : String} (h : name ∈ g.names) :
    0 < g.weight (depth + 1, name) :=
  Nat.lt_of_lt_of_le (Rule.rank_pos h) (Nat.le_add_left _ _)

/-- An application makes only applications that its rule has an atom for. -/
theorem Makes.calls {a b : Application} (h : g.Makes a b) :
    g.Calls (b.depth, b.rule) (a.depth, a.rule) := by
  obtain ⟨_, ⟨hfind, hat, happlies⟩⟩ := h
  exact .of_atom hfind hat.mem happlies.applies

namespace Resolved

/-- What an atom applies exists. -/
theorem name_mem_of_applies (h : g.Resolved) {r : Rule} (hr : r ∈ g.rules) {atom : Atom}
    (hatom : atom ∈ r.alts.flatten) {depth depth' : Nat} {name : String}
    (happlies : Applies depth atom depth' name) : name ∈ g.names :=
  h r hr name (List.mem_filterMap.mpr ⟨atom, hatom, happlies.reference?_eq⟩)

/-- What an atom of a rule refers to exists. -/
theorem mem_names (h : g.Resolved) {r : Rule} (hr : r ∈ g.rules) {alt : Alternative}
    (halt : alt ∈ r.alts) {atom : Atom} (hatom : atom ∈ alt) {name : String}
    (hname : atom.reference? = some name) : name ∈ g.names :=
  h r hr name (List.mem_filterMap.mpr ⟨atom, List.mem_flatten_of_mem halt hatom, hname⟩)

/-- What an application makes applies a rule that exists. -/
theorem rule_mem_of_makes (h : g.Resolved) {a b : Application} (hmakes : g.Makes a b) :
    b.rule ∈ g.names := by
  obtain ⟨_, ⟨hfind, hat, happlies⟩⟩ := hmakes
  exact h.name_mem_of_applies (mem_of_find?_eq_some hfind).1 hat.mem happlies.applies

/-- No rule is missing, whatever the number of applications that may be open. -/
theorem applyRule_ne_missingRule (h : g.Resolved) {missing : String} :
    ∀ {nesting depth : Nat} {name : String} (text : List Char), name ∈ g.names →
    applyRule g nesting depth name text ≠ .error (.missingRule missing) := by
  intro nesting
  induction nesting using Nat.strongRecOn with
  | ind nesting ih =>
    intro depth name text hname hstop
    rcases exists_makes_of_outcome_eq_error (a := ⟨nesting, depth, name, text⟩) hstop with
      ⟨-, hne⟩ | ⟨-, hne⟩ | ⟨hnone, -⟩ | ⟨atom, b, hfor, hstop'⟩
    · cases hne
    · cases hne
    · obtain ⟨r, hfind⟩ := exists_find?_of_mem_names hname
      rw [hfind] at hnone
      cases hnone
    · -- the stop comes from an application that this one makes
      have hmakes : g.Makes _ b := ⟨atom, hfor⟩
      have hnesting : nesting = b.nesting + 1 := hmakes.nesting_eq
      exact ih b.nesting (by omega) b.text (h.rule_mem_of_makes hmakes) hstop'

/-- A match with some level has a result or is beyond the limit. -/
theorem matchWithin_eq (h : g.Resolved) (nesting : Nat) {rule : String}
    (hrule : g.contains rule = true) (input : String) {maxDepth : Int} (hdepth : 1 ≤ maxDepth) :
    (∃ result, g.matchWithin nesting rule input maxDepth = .ok result) ∨
      ∃ name, g.matchWithin nesting rule input maxDepth = .error (.tooDeep name maxDepth) := by
  rw [matchWithin, if_neg (by omega), hrule]
  rcases hmatch : applyRule g nesting maxDepth.toNat rule input.toList with stop | span
  · cases stop with
    | tooDeep name => exact Or.inr ⟨name, rfl⟩
    | tooNested => exact Or.inr ⟨rule, rfl⟩
    | missingRule name =>
      exact absurd hmatch (h.applyRule_ne_missingRule _ (contains_iff.mp hrule))
  · exact Or.inl ⟨_, rfl⟩

/-- No match stops for want of a rule that another one refers to. -/
theorem matchWithin_ne_missingRule (h : g.Resolved) (nesting : Nat) (rule input : String)
    (maxDepth : Int) (missing : String) :
    g.matchWithin nesting rule input maxDepth ≠ .error (.missingRule missing) := by
  intro hmissing
  rcases Int.lt_or_le maxDepth 1 with hdepth | hdepth
  · rw [matchWithin, if_pos hdepth] at hmissing
    cases hmissing
  rcases hrule : g.contains rule
  · rw [matchWithin, if_neg (by omega), hrule] at hmissing
    cases hmissing
  · rcases h.matchWithin_eq nesting hrule input hdepth with ⟨_, heq⟩ | ⟨_, heq⟩ <;>
      rw [heq] at hmissing <;> cases hmissing

end Resolved

namespace ConsistsOf

variable {statements : List Statement}

theorem isResolved (h : g.ConsistsOf statements) : g.Resolved := h.resolved

/-- Applications get lighter: a reference takes one of the levels left, and a bracket leads to a
rule of lower rank at the same level. -/
theorem weight_lt (h : g.ConsistsOf statements) {callee caller : Nat × String}
    (hcalls : g.Calls callee caller) : g.weight callee < g.weight caller := by
  obtain @⟨depth, depth', name, name', r, atom, hfind, hatom, happlies⟩ := hcalls
  obtain ⟨hr, rfl⟩ := mem_of_find?_eq_some hfind
  have hpos : 0 < Rule.rank g.rules r.name := Rule.rank_pos (List.mem_map_of_mem hr)
  cases happlies with
  | reference =>
    -- a level less outweighs any rank
    calc g.weight (depth, name') ≤ depth * g.rules.length := weight_le depth name'
      _ < depth * g.rules.length + Rule.rank g.rules r.name := Nat.lt_add_of_pos_right hpos
  | lifted bracket =>
    -- at the same level the rank is lower
    have hmem : (bracket.word, name') ∈ r.brackets := List.mem_filterMap.mpr ⟨_, hatom, rfl⟩
    exact Nat.add_lt_add_left (h.rank_lt hr hmem) _

/-- There is no infinite chain of applications, since each is lighter than the one before. -/
theorem wellFounded_calls (h : g.ConsistsOf statements) : WellFounded g.Calls :=
  Subrelation.wf (fun hcalls => h.weight_lt hcalls) (InvImage.wf g.weight Nat.lt_wfRel.wf)

/-- Brackets that stand in each other are no more than there are rules. -/
theorem length_lt_of_isChain (h : g.ConsistsOf statements) : ∀ {chain : List String}
    {name : String}, name ∈ g.names → List.IsChain g.Encloses (name :: chain) →
    chain.length < Rule.rank g.rules name := by
  intro chain
  induction chain with
  | nil => exact fun hname _ => Rule.rank_pos hname
  | cons name' rest ih =>
    intro name _ hchain
    obtain ⟨⟨r, hfind, kind, hmem⟩, hrest⟩ := List.isChain_cons_cons.mp hchain
    obtain ⟨hr, rfl⟩ := mem_of_find?_eq_some hfind
    have hlt : rest.length < Rule.rank g.rules name' := ih (h.inOrder.name_mem hr hmem) hrest
    exact Nat.lt_of_le_of_lt hlt (h.rank_lt hr hmem)

/-- The weight bounds the open applications, so with that much room a match is never given up for
want of it. -/
theorem applyRule_ne_tooNested (h : g.ConsistsOf statements) : ∀ {nesting depth : Nat}
    {name : String} (text : List Char), name ∈ g.names → g.weight (depth, name) ≤ nesting →
    applyRule g nesting depth name text ≠ .error .tooNested := by
  intro nesting
  induction nesting using Nat.strongRecOn with
  | ind nesting ih =>
    intro depth name text hname hweight hstop
    -- of the ways in which an application can be stopped two say something else
    rcases exists_makes_of_outcome_eq_error (a := ⟨nesting, depth, name, text⟩) hstop with
      ⟨-, hne⟩ | ⟨hzero, -⟩ | ⟨-, hne⟩ | ⟨atom, b, hfor, hstop'⟩
    · cases hne
    · -- there is room, since the application itself weighs something
      cases depth with
      | zero => cases nesting <;> cases hstop
      | succ depth =>
        obtain rfl : nesting = 0 := hzero
        exact absurd hweight (Nat.not_le_of_lt (weight_pos hname))
    · cases hne
    · -- the stop comes from an application that this one makes, which is lighter
      have hmakes : g.Makes _ b := ⟨atom, hfor⟩
      have hnesting : nesting = b.nesting + 1 := hmakes.nesting_eq
      have hlt : g.weight (b.depth, b.rule) < g.weight (depth, name) :=
        h.weight_lt hmakes.calls
      exact ih b.nesting (by omega) b.text (h.isResolved.rule_mem_of_makes hmakes) (by omega)
        hstop'

/-- With room for the weight, more room makes no difference. -/
theorem applyRule_eq_of_weight_le (h : g.ConsistsOf statements) : ∀ {nesting nesting' depth : Nat}
    {name : String}, name ∈ g.names → g.weight (depth, name) ≤ nesting →
    g.weight (depth, name) ≤ nesting' →
    applyRule g nesting depth name = applyRule g nesting' depth name := by
  intro nesting
  induction nesting with
  -- without room there is no level either
  | zero =>
    intro nesting' depth name hname hweight _
    cases depth with
    | zero => cases nesting' <;> rfl
    | succ depth => exact absurd hweight (Nat.not_le_of_lt (weight_pos hname))
  | succ nesting ih =>
    intro nesting' depth name hname hweight hweight'
    cases depth with
    | zero => cases nesting' <;> rfl
    | succ depth =>
      cases nesting' with
      | zero => exact absurd hweight' (Nat.not_le_of_lt (weight_pos hname))
      -- with a level and room both evaluate the same rule
      | succ nesting' =>
        obtain ⟨r, hfind⟩ := exists_find?_of_mem_names hname
        funext text
        rw [applyRule, applyRule, hfind]
        refine Match.evalAlternatives_congr (fun atom hatom depth' name' happlies => ?_) text
        -- what its atoms apply is lighter
        have hlt := h.weight_lt (.of_atom hfind hatom happlies)
        exact ih (h.isResolved.name_mem_of_applies (mem_of_find?_eq_some hfind).1 hatom happlies)
          (by omega) (by omega)

end ConsistsOf

end Grammar

/-! ### Repetitions -/

namespace Match

/-- A repetition as a loop of at most so many rounds, which is left when a round fails or takes
nothing.  There is no result if no round has left it. -/
def loop (once : List Char → Outcome) : (rounds : Nat) → List Char → Option (Except Stop Span)
  | 0, _ => none
  | rounds + 1, text =>
    match once text with
    | .error stop => some (.error stop)
    | .ok none => some (.ok .nothing)
    | .ok (some span) =>
      if span.length = 0 then some (.ok .nothing)
      else (loop once rounds (span.after text)).map (Except.map (span ++ ·))

omit [Pattern.Engine] in
/-- A repetition needs at most one round more than there are characters. -/
theorem loop_eq_repeated {once : List Char → Outcome} (honce : ∀ text, (once text).Fits text) :
    ∀ {rounds : Nat} {text : List Char}, text.length < rounds →
      loop once rounds text = some (repeated once text) := by
  intro rounds
  induction rounds with
  | zero => exact fun h => absurd h (Nat.not_lt_zero _)
  | succ rounds ih =>
    intro text hlt
    -- either loop decides by what a round takes
    rw [loop, repeated]
    rcases hround : once text with stop | _ | span
    · rfl
    · rfl
    · have hfits : span.length ≤ text.length := honce text span hround
      have hafter : (span.after text).length = text.length - span.length := List.length_drop
      dsimp only
      -- a round takes nothing just when it leaves the text as long as it was
      by_cases hzero : span.length = 0
      · rw [if_pos hzero, if_neg (by omega)]
      · rw [if_neg hzero, if_pos (by omega), ih (by omega)]
        rcases repeated once (span.after text) with stop | more
        · rfl
        · rfl

end Match

/-! ### Matches -/

namespace Grammar

variable {g : Grammar} {statements : List Statement}

/-- **Matching ends.**  A match with a rule of the grammar of a text has a result or is beyond the
limit.  The open applications have a bound, beyond which more room for them makes no difference;
there is no infinite chain of applications, and a chain of brackets in brackets is shorter than
the grammar.  A repetition has at most one round more than there are characters. -/
theorem matchWithin_terminates {text : List Char} (h : Grammar.compile text = .ok g) :
    (∀ nesting rule input maxDepth, g.contains rule = true → 1 ≤ maxDepth →
      (∃ result, g.matchWithin nesting rule input maxDepth = .ok result) ∨
        ∃ name, g.matchWithin nesting rule input maxDepth = .error (.tooDeep name maxDepth)) ∧
    (∀ nesting depth rule, g.contains rule = true → depth * g.rules.length ≤ nesting →
      (∀ input, applyRule g nesting depth rule input ≠ .error .tooNested) ∧
        applyRule g nesting depth rule = applyRule g (depth * g.rules.length) depth rule) ∧
    WellFounded g.Calls ∧
    (∀ rule chain, g.contains rule = true → List.IsChain g.Encloses (rule :: chain) →
      chain.length < g.rules.length) ∧
    (∀ nesting depth rule input,
      Match.loop (applyRule g nesting depth rule) (input.length + 1) input
        = some (Match.repeated (applyRule g nesting depth rule) input)) := by
  -- the grammar consists of its statements, which makes references go down in weight
  have hg := Grammar.consistsOf_of_compile h
  refine ⟨?_, ?_, hg.wellFounded_calls, ?_, ?_⟩
  · -- references have rules, so nothing else can stop a match
    intro nesting rule input maxDepth hrule hdepth
    exact hg.isResolved.matchWithin_eq nesting hrule input hdepth
  · -- the weight of an application is at most the room asked for
    intro nesting depth rule hrule hnesting
    have hmem : rule ∈ g.names := contains_iff.mp hrule
    have hweight : g.weight (depth, rule) ≤ depth * g.rules.length := weight_le depth rule
    exact ⟨fun input => hg.applyRule_ne_tooNested input hmem (Nat.le_trans hweight hnesting),
      hg.applyRule_eq_of_weight_le hmem (Nat.le_trans hweight hnesting) hweight⟩
  · -- brackets stand behind the rule that they are in
    intro rule chain hrule hchain
    exact Nat.lt_of_lt_of_le (hg.length_lt_of_isChain (contains_iff.mp hrule) hchain)
      (Rule.rank_le_length _ _)
  · intro nesting depth rule input
    exact Match.loop_eq_repeated (Match.fits_applyRule g nesting depth rule) (Nat.lt_succ_self _)

end Grammar

end AnyEngine

namespace Grammar

attribute [local instance] Pattern.Engine.verbatim

theorem matchWithin_terminates_listText :
    (∀ input, applyRule listGrammar 8 2 "L" input ≠ .error .tooNested) ∧
      WellFounded listGrammar.Calls := by
  obtain ⟨-, hbound, hwf, -⟩ := matchWithin_terminates compile_listText
  exact ⟨(hbound 8 2 "L" rfl (by decide)).1, hwf⟩

end Grammar

end Ebnf
