import Ebnf.CommandLine.Request

/-!
# Reading the arguments

Each function that reads arguments has its equations here, or a condition for what it accepts.  The
reading of a command looks ahead by one argument at most: an option may take the next argument for
its value, and a positional argument the separator after it.  So two lists of arguments with the
same beginning are read in step up to where they part.

## Main definitions

* `asPlain` — arguments all of which are positional, as they are after a separator.
* `Progress.Accepted`, `Command.Supplied` — what has been read is enough, and not too much.
* `Request.MadeBy` — how arguments make a request.

## Main results

* `readArguments_asPlain` — positional arguments are taken as long as some are wanted.
* `readArguments_append_rel` — **what holds of the readings of two ends holds of those of two lists
  that have the same beginning.**
* `Command.readAll_eq_ok_iff`, `Request.ofArguments_eq_ok_iff` — the arguments that are accepted.
-/

namespace Ebnf.CommandLine

/-! ### Shapes -/

variable {names : List (String × OptionKey)} {wanted : Nat} {p : Progress}

/-- Arguments all of which are positional, as they are behind a separator. -/
def asPlain (args : List String) : List (String × Shape) := args.map (·, .plain)

theorem map_fst_asPlain (args : List String) : (asPlain args).map (·.1) = args := by
  rw [asPlain, List.map_map]
  exact List.map_id _

theorem shapes_cons_eq_ok_iff {argument : String} {rest : List String}
    {shaped : List (String × Shape)} : shapes names (argument :: rest) = .ok shaped ↔
      shapeAmong names argument = .ok .separator ∧
        shaped = (argument, .separator) :: asPlain rest ∨
      ∃ shape more, shapeAmong names argument = .ok shape ∧ shape ≠ .separator ∧
        shapes names rest = .ok more ∧ shaped = (argument, shape) :: more := by
  rw [shapes]
  rcases shapeAmong names argument with _ | shape
  · -- where the shape of the first argument is refused, nothing is read
    constructor
    · rintro ⟨⟩
    · rintro (⟨⟨⟩, -⟩ | ⟨_, _, ⟨⟩, -⟩)
  · cases shape with
    -- everything behind a separator is plain
    | separator =>
      constructor
      · rintro ⟨⟩
        exact Or.inl ⟨rfl, rfl⟩
      · rintro (⟨-, rfl⟩ | ⟨_, _, ⟨⟩, h, -⟩)
        · rfl
        · exact absurd rfl h
    -- otherwise the other arguments have shapes of their own
    | _ =>
      rcases hmore : shapes names rest with _ | more <;> constructor
      · rintro ⟨⟩
      · rintro (⟨⟨⟩, -⟩ | ⟨_, _, -, -, ⟨⟩, -⟩)
      · rintro ⟨⟩
        exact Or.inr ⟨_, _, rfl, Shape.noConfusion, rfl, rfl⟩
      · rintro (⟨⟨⟩, -⟩ | ⟨_, _, ⟨⟩, -, ⟨⟩, rfl⟩)
        rfl

theorem map_fst_shapes {args : List String} {shaped : List (String × Shape)}
    (h : shapes names args = .ok shaped) : shaped.map (·.1) = args := by
  induction args generalizing shaped with
  | nil => cases h; rfl
  | cons argument rest ih =>
    obtain ⟨-, rfl⟩ | ⟨_, more, -, -, hmore, rfl⟩ := shapes_cons_eq_ok_iff.mp h
    · rw [List.map_cons, map_fst_asPlain]
    · rw [List.map_cons, ih hmore]

/-! ### Arguments one by one -/

theorem readArguments_option (argument : String) (key : OptionKey) (short : Bool)
    (attached : Option Attached) (rest : List (String × Shape)) :
    readArguments names wanted p ((argument, .option key short attached) :: rest) =
      (readOption names p key short attached rest).bind fun x =>
        if x.1.choices.help then .ok x.1 else readArguments names wanted x.1 x.2.1 := by
  rw [readArguments]
  rfl

/-- After an option the reading goes on, unless it is asked how the program is used. -/
theorem readArguments_option_eq_ok_iff {argument : String} {key : OptionKey} {short : Bool}
    {attached : Option Attached} {rest : List (String × Shape)} {q : Progress} :
    readArguments names wanted p ((argument, .option key short attached) :: rest) = .ok q ↔
      ∃ x, readOption names p key short attached rest = .ok x ∧
        (x.1.choices.help = true ∧ q = x.1 ∨
          x.1.choices.help = false ∧ readArguments names wanted x.1 x.2.1 = .ok q) := by
  rw [readArguments_option]
  rcases readOption names p key short attached rest with fault | x
  · exact ⟨nofun, nofun⟩
  · change (if x.1.choices.help then .ok x.1 else readArguments names wanted x.1 x.2.1) = _ ↔ _
    simp only [Except.ok.injEq, exists_eq_left']
    cases x.1.choices.help
    · simp
    · simp [eq_comm (a := q)]

theorem readArguments_stranger (argument : String) (rest : List (String × Shape)) :
    readArguments names wanted p ((argument, .stranger) :: rest) =
      readArguments names wanted { p with extras := p.extras ++ [argument] } rest := by
  rw [readArguments]

theorem readArguments_plain (argument : String) (rest : List (String × Shape)) :
    readArguments names wanted p ((argument, .plain) :: rest) =
      if p.values.length < wanted then
        readArguments names wanted { p with values := p.values ++ [argument] } (skipSeparator rest)
      else readArguments names wanted { p with extras := p.extras ++ [argument] } rest := by
  rw [readArguments]

theorem readArguments_separator_plain (argument value : String) (rest : List (String × Shape)) :
    readArguments names wanted p ((argument, .separator) :: (value, .plain) :: rest) =
      if p.values.length < wanted then
        readArguments names wanted { p with values := p.values ++ [value] } rest
      else
        readArguments names wanted { p with extras := p.extras ++ [argument] }
          ((value, .plain) :: rest) := by
  rw [readArguments]

theorem readArguments_separator {argument : String} {rest : List (String × Shape)}
    (h : ∀ value rest', rest = (value, .plain) :: rest' → False) :
    readArguments names wanted p ((argument, .separator) :: rest) =
      readArguments names wanted { p with extras := p.extras ++ [argument] } rest := by
  rw [readArguments]
  exact h

theorem skipSeparator_eq_or (args : List (String × Shape)) :
    skipSeparator args = args ∨
      ∃ argument, args = (argument, .separator) :: skipSeparator args := by
  unfold skipSeparator
  split
  · exact Or.inr ⟨_, rfl⟩
  · exact Or.inl rfl

/-! ### Positional arguments -/

/-- Nothing is left over, no positional argument is missing, and it was not asked how the program
is used. -/
structure Progress.Accepted (wanted : Nat) (p : Progress) : Prop where
  help_eq : p.choices.help = false
  extras_eq : p.extras = []
  le_length : wanted ≤ p.values.length

theorem skipSeparator_asPlain (args : List String) :
    skipSeparator (asPlain args) = asPlain args := by
  cases args <;> rfl

/-- Positional arguments are taken as long as some are wanted, and the others are left over. -/
theorem readArguments_asPlain (p : Progress) (args : List String) :
    readArguments names wanted p (asPlain args) =
      .ok ⟨p.values ++ args.take (wanted - p.values.length), p.choices,
        p.extras ++ args.drop (wanted - p.values.length)⟩ := by
  induction args generalizing p with
  | nil =>
    change readArguments names wanted p [] = _
    rw [readArguments, List.take_nil, List.drop_nil, List.append_nil, List.append_nil]
  | cons argument rest ih =>
    change readArguments names wanted p ((argument, .plain) :: asPlain rest) = _
    rw [readArguments_plain, skipSeparator_asPlain]
    split
    · -- the argument is taken, and one less is wanted
      next h =>
      obtain ⟨n, hn⟩ := Nat.exists_eq_succ_of_ne_zero (Nat.sub_ne_zero_of_lt h)
      have hn' : wanted - (p.values ++ [argument]).length = n := by
        rw [List.length_append, List.length_singleton]
        omega
      rw [ih, hn, hn', List.take_succ_cons, List.drop_succ_cons, List.append_assoc,
        List.singleton_append]
    · -- nothing is wanted any more, so it is left over
      next h =>
      have hn : wanted - p.values.length = 0 := by omega
      rw [ih, hn, List.take_zero, List.drop_zero, List.take_zero, List.drop_zero, List.append_assoc,
        List.singleton_append]

/-- As many positional arguments are accepted as are wanted. -/
theorem Progress.Accepted.length_of_asPlain {q : Progress} {args : List String}
    (hq : q.Accepted wanted) (h : readArguments names wanted p (asPlain args) = .ok q) :
    args.length ≤ wanted - p.values.length ∧ wanted ≤ p.values.length + args.length := by
  rw [readArguments_asPlain] at h
  cases h
  have hdrop := List.drop_eq_nil_iff.mp (List.append_eq_nil_iff.mp hq.extras_eq).2
  have hvalues := hq.le_length
  rw [List.length_append, List.length_take] at hvalues
  exact ⟨hdrop, by omega⟩

/-- A separator that is accepted is without effect on positional arguments. -/
theorem Progress.Accepted.asPlain_of_separator {q : Progress} {argument : String}
    {args : List String} (hq : q.Accepted wanted)
    (h : readArguments names wanted p ((argument, .separator) :: asPlain args) = .ok q) :
    readArguments names wanted p (asPlain args) = .ok q := by
  -- when the separator is left over, so it is in the end
  have hleft : ¬readArguments names wanted { p with extras := p.extras ++ [argument] }
      (asPlain args) = .ok q := by
    intro h
    rw [readArguments_asPlain] at h
    cases h
    have hextras := hq.extras_eq
    simp at hextras
  cases args with
  | nil =>
    rw [readArguments_separator (by rintro _ _ ⟨⟩)] at h
    exact absurd h hleft
  | cons value rest =>
    change readArguments names wanted p ((argument, .separator) :: (value, .plain) :: asPlain rest)
      = .ok q at h
    change readArguments names wanted p ((value, .plain) :: asPlain rest) = .ok q
    rw [readArguments_separator_plain] at h
    rw [readArguments_plain, skipSeparator_asPlain]
    by_cases hwanted : p.values.length < wanted
    · rwa [if_pos hwanted] at h ⊢
    · rw [if_neg hwanted] at h
      exact absurd h hleft

/-! ### Two readings with the same beginning -/

section Append

variable {end₁ end₂ : List (String × Shape)}

/-- An option takes nothing of an end that does not begin with a positional argument. -/
theorem readOption_append {key : OptionKey} {short : Bool} {attached : Option Attached}
    {args : List (String × Shape)} (hplain : ∀ value rest, end₂ ≠ (value, .plain) :: rest) {x₁ x₂}
    (h₁ : readOption names p key short attached (args ++ end₁) = .ok x₁)
    (h₂ : readOption names p key short attached (args ++ end₂) = .ok x₂) :
    x₂.1 = x₁.1 ∧ ∃ rest, rest <:+ args ∧ x₁.2.1 = rest ++ end₁ ∧ x₂.2.1 = rest ++ end₂ := by
  unfold readOption at h₁ h₂
  -- an option that takes a value takes what is attached or else the next argument
  by_cases hvalue : key.takesValue = true
  · rw [if_pos hvalue] at h₁ h₂
    rcases attached with _ | a
    · match args with
      | [] =>
        match end₂ with
        | (value, .plain) :: rest => exact absurd rfl (hplain value rest)
        | [] | (_, .separator) :: _ | (_, .option _ _ _) :: _ | (_, .stranger) :: _ => cases h₂
      | (value, .plain) :: rest =>
        dsimp only [List.cons_append] at h₁ h₂
        rcases hset : p.choices.set key value with _ | c <;> rw [hset] at h₁ h₂ <;> cases h₁
        cases h₂
        exact ⟨rfl, rest, List.suffix_cons _ _, rfl, rfl⟩
      | (_, .separator) :: _ | (_, .option _ _ _) :: _ | (_, .stranger) :: _ => cases h₂
    · dsimp only at h₁ h₂
      rcases hset : p.choices.set key a.value with _ | c <;> rw [hset] at h₁ h₂ <;> cases h₁
      cases h₂
      exact ⟨rfl, args, List.suffix_rfl, rfl, rfl⟩
  · -- one that takes none leaves the arguments to those behind it
    rw [if_neg hvalue] at h₁ h₂
    rcases attached with _ | a
    · cases h₁
      cases h₂
      exact ⟨rfl, args, List.suffix_rfl, rfl, rfl⟩
    · dsimp only at h₁ h₂
      cases short
      · cases h₁
      · rcases hletters : readLetters names p key a a.value.toList with _ | p' <;>
          rw [hletters] at h₁ h₂ <;> cases h₁
        cases h₂
        exact ⟨rfl, args, List.suffix_rfl, rfl, rfl⟩

/-- What holds of the readings of two ends holds of those of two lists with the same beginning, in
which no separator stands.  The last positional argument before the ends may take a separator with
it. -/
theorem readArguments_append_rel {R : Progress → Progress → Prop}
    (hhelp : ∀ q : Progress, q.choices.help = true → R q q)
    (hplain : ∀ value rest, end₂ ≠ (value, .plain) :: rest)
    (hend : ∀ p q₁ q₂ : Progress, p.choices.help = false →
      readArguments names wanted p end₁ = .ok q₁ → readArguments names wanted p end₂ = .ok q₂ →
      R q₁ q₂)
    (hskip : ∀ p q₁ q₂ : Progress, p.choices.help = false →
      readArguments names wanted p (skipSeparator end₁) = .ok q₁ →
      readArguments names wanted p (skipSeparator end₂) = .ok q₂ → R q₁ q₂) :
    ∀ (args : List (String × Shape)), (∀ x ∈ args, x.2 ≠ .separator) →
      ∀ p q₁ q₂ : Progress, p.choices.help = false →
      readArguments names wanted p (args ++ end₁) = .ok q₁ →
      readArguments names wanted p (args ++ end₂) = .ok q₂ → R q₁ q₂ := by
  intro args
  -- an option may take two arguments at once
  induction hn : args.length using Nat.strongRecOn generalizing args with
  | _ n ih =>
    subst hn
    intro hargs p q₁ q₂ hp h₁ h₂
    match args with
    -- only the ends are left, which are assumed to be read alike
    | [] => exact hend p q₁ q₂ hp h₁ h₂
    | (argument, .separator) :: rest => exact absurd rfl (hargs _ List.mem_cons_self)
    -- a stranger is left over on both sides
    | (argument, .stranger) :: rest =>
      rw [List.cons_append, readArguments_stranger] at h₁ h₂
      exact ih rest.length (Nat.lt_succ_self _) rest rfl (List.forall_mem_cons.mp hargs).2
        { p with extras := p.extras ++ [argument] } q₁ q₂ hp h₁ h₂
    -- an option stands before the ends, so it takes the same arguments on both sides
    | (argument, .option key short attached) :: rest =>
      obtain ⟨x₁, hread₁, hdone₁⟩ := readArguments_option_eq_ok_iff.mp h₁
      obtain ⟨x₂, hread₂, hdone₂⟩ := readArguments_option_eq_ok_iff.mp h₂
      obtain ⟨hsame, more, hmore, hmore₁, hmore₂⟩ := readOption_append hplain hread₁ hread₂
      rw [hsame] at hdone₂
      -- one that asks for help ends the reading
      rcases hdone₁ with ⟨hasked, rfl⟩ | ⟨hasked, h₁⟩
      · obtain rfl : q₂ = x₁.1 := (hdone₂.resolve_right (by simp [hasked])).2
        exact hhelp _ hasked
      · have h₂ := (hdone₂.resolve_left (by simp [hasked])).2
        rw [hmore₁] at h₁
        rw [hmore₂] at h₂
        exact ih more.length (Nat.lt_succ_of_le hmore.length_le) more rfl
          (fun x hx => (List.forall_mem_cons.mp hargs).2 x (hmore.subset hx))
          x₁.1 q₁ q₂ hasked h₁ h₂
    | (argument, .plain) :: rest =>
      have hrest := (List.forall_mem_cons.mp hargs).2
      rw [List.cons_append, readArguments_plain] at h₁ h₂
      -- a plain argument is taken while some are wanted
      by_cases hwanted : p.values.length < wanted
      · rw [if_pos hwanted] at h₁ h₂
        -- with the first plain one after an option the separator may be skipped
        match rest with
        | [] => exact hskip { p with values := p.values ++ [argument] } q₁ q₂ hp h₁ h₂
        | (_, .separator) :: _ => exact absurd rfl (hrest _ List.mem_cons_self)
        | (next, .plain) :: more | (next, .option _ _ _) :: more | (next, .stranger) :: more =>
          exact ih _ (Nat.lt_succ_self _) _ rfl hrest
            { p with values := p.values ++ [argument] } q₁ q₂ hp h₁ h₂
      · -- else it is left over
        rw [if_neg hwanted] at h₁ h₂
        exact ih _ (Nat.lt_succ_self _) rest rfl hrest
          { p with extras := p.extras ++ [argument] } q₁ q₂ hp h₁ h₂

end Append

/-! ### Commands -/

/-- All that a command needs has been read: its positional arguments, and for a match a text. -/
structure Command.Supplied (c : Command) (p : Progress) : Prop where
  values : c.positionals.length ≤ p.values.length
  source : c = .matchText → p.choices.text ≠ none ∨ p.choices.input ≠ none

/-- What a command reads of its arguments is what the reading from left to right ends with, if
nothing is missing then or it was asked how the command is used. -/
theorem Command.readAll_eq_ok_iff {c : Command} {args : List String} {p : Progress} :
    c.readAll args = .ok p ↔ ∃ shaped, shapes c.optionNames args = .ok shaped ∧
      readArguments c.optionNames c.positionals.length .start shaped = .ok p ∧
      (p.choices.help = true ∨ c.Supplied p) := by
  rw [readAll]
  -- arguments whose shapes are refused are refused before anything is read
  rcases shapes c.optionNames args with _ | shaped
  · exact ⟨nofun, nofun⟩
  simp only [bind, Except.bind, Except.ok.injEq, exists_eq_left']
  rcases readArguments c.optionNames c.positionals.length .start shaped with _ | q
  · exact ⟨nofun, nofun⟩
  simp only
  -- help is asked for before it is seen that something is missing
  by_cases hhelp : q.choices.help = true
  · rw [if_pos hhelp]
    constructor
    · rintro ⟨⟩
      exact ⟨rfl, Or.inl hhelp⟩
    · rintro ⟨⟨⟩, -⟩
      rfl
  · rw [if_neg hhelp]
    rcases hdrop : c.positionals.drop q.values.length with _ | ⟨name, others⟩
    · -- no positional argument is missing; a match still needs its text
      have hvalues := List.drop_eq_nil_iff.mp hdrop
      by_cases hsource : c = .matchText ∧ q.choices.text = none ∧ q.choices.input = none
      · simp only [if_pos hsource]
        constructor
        · rintro ⟨⟩
        · rintro ⟨⟨⟩, hhelp' | hsupplied⟩
          · exact absurd hhelp' hhelp
          · exact ((hsupplied.source hsource.1).elim (· hsource.2.1) (· hsource.2.2)).elim
      · simp only [if_neg hsource]
        constructor
        · rintro ⟨⟩
          refine ⟨rfl, Or.inr ⟨hvalues, fun hc => ?_⟩⟩
          by_cases htext : p.choices.text = none
          · exact Or.inr fun hinput => hsource ⟨hc, htext, hinput⟩
          · exact Or.inl htext
        · rintro ⟨⟨⟩, -⟩
          rfl
    · -- a positional argument is missing, so the arguments are no request
      constructor
      · rintro ⟨⟩
      · rintro ⟨⟨⟩, hhelp' | hsupplied⟩
        · exact absurd hhelp' hhelp
        · rw [List.drop_eq_nil_of_le hsupplied.values] at hdrop
          cases hdrop

/-! ### Requests -/

section Opening

variable {argument : String} {rest : List (String × Shape)}

@[simp] theorem findCommand_stranger : findCommand ((argument, .stranger) :: rest) =
    ((findCommand rest).1, argument :: (findCommand rest).2) := rfl

@[simp] theorem findCommand_plain : findCommand ((argument, .plain) :: rest) =
    (some (argument, rest.map (·.1)), []) := by
  cases rest <;> rfl

@[simp] theorem findCommand_option {key : OptionKey} {short : Bool} {attached : Option Attached} :
    findCommand ((argument, .option key short attached) :: rest) =
      (some (argument, rest.map (·.1)), []) := by
  cases rest <;> rfl

theorem findCommand_separator_asPlain (argument : String) {xs : List String} (hxs : xs ≠ []) :
    findCommand ((argument, .separator) :: asPlain xs) = (some (argument, xs), []) := by
  obtain ⟨x, xs, rfl⟩ := List.exists_cons_of_ne_nil hxs
  change (some (argument, (asPlain (x :: xs)).map (·.1)), []) = _
  rw [map_fst_asPlain]

end Opening

/-- How arguments make a request: there is a command among them, and its arguments are accepted.
Nowhere is it asked how the program is used, and nothing is left over. -/
inductive Request.MadeBy (args : List String) : Request → Prop
  /-- The request is that of the command with what has been read of its arguments. -/
  | command {shaped : List (String × Shape)} {name : String} {rest extras : List String}
    {c : Command} {p : Progress} (hshaped : shapes globalOptions args = .ok shaped)
    (husage : asksUsage shaped = .ok false)
    (hfind : findCommand shaped = (some (name, rest), extras))
    (hname : Command.ofName? name = some c) (hread : c.readAll rest = .ok p)
    (hhelp : p.choices.help = false) (hextras : extras ++ p.extras = []) :
    MadeBy args (c.request p)

theorem mapError_ok {α ε ε' : Type} (f : ε → ε') (x : α) : (Except.ok x).mapError f = .ok x := rfl

/-- Arguments make a request if and only if a command is found among them, its arguments supply it,
and nothing is left over before it or behind it. -/
theorem Request.ofArguments_eq_ok_iff {args : List String} {request : Request} :
    Request.ofArguments args = .ok request ↔ request.MadeBy args := by
  constructor
  · -- every way to go on but one ends in a refusal
    intro h
    unfold ofArguments at h
    rcases hshaped : shapes globalOptions args with _ | shaped <;> rw [hshaped] at h
    · cases h
    simp only [bind, Except.bind, mapError_ok] at h
    rcases husage : asksUsage shaped with _ | _ | _ <;> rw [husage] at h
    · cases h
    · rw [mapError_ok] at h
      dsimp only at h
      rw [if_neg Bool.false_ne_true] at h
      rcases hfind : findCommand shaped with ⟨_ | ⟨name, rest⟩, extras⟩ <;> rw [hfind] at h
      · cases h
      dsimp only at h
      rcases hname : Command.ofName? name with _ | c <;> rw [hname] at h
      · cases h
      dsimp only at h
      rcases hread : c.readAll rest with _ | p <;> rw [hread] at h
      · cases h
      rw [mapError_ok] at h
      dsimp only at h
      cases hhelp : p.choices.help <;> rw [hhelp] at h
      · rw [if_neg Bool.false_ne_true] at h
        rcases hextras : extras ++ p.extras with _ | _ <;> rw [hextras] at h
        · cases h
          exact .command hshaped husage hfind hname hread hhelp hextras
        · cases h
      · cases h
    · cases h
  · -- the way of a request through all these tests
    rintro ⟨hshaped, husage, hfind, hname, hread, hhelp, hextras⟩
    rename_i shaped name rest extras c p
    rw [ofArguments, hshaped]
    simp only [bind, Except.bind, mapError_ok]
    rw [husage, mapError_ok]
    dsimp only
    rw [if_neg Bool.false_ne_true, hfind]
    dsimp only
    rw [hname]
    dsimp only
    rw [hread, mapError_ok]
    dsimp only
    rw [hhelp, if_neg Bool.false_ne_true, hextras]
    rfl

end Ebnf.CommandLine
