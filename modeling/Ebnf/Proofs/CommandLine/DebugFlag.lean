import Ebnf.Proofs.CommandLine.Reading

/-!
# The flag for reports of every stage

The flag may stand at any place among the arguments where it is not taken for something else.  Two
readings are compared, of arguments with the flag and without it.  Where the flag is read as an
option, the readings go on in step, and differ in the one choice only.  After a separator it is one
positional argument too many, and before the command it is left over, so that no request is made of
one of the two lists.

## Main definitions

* `Choices.withDebug`, `Progress.withDebug`, `Request.withDebug` — the same, with reports.
* `Inserted`, `FlagFound` — what the flag changes in the shapes of arguments, and in the command
  that is found among them.

## Main results

* `readArguments_withDebug` — the choice of reports has no influence on what else is read.
* `Inserted.eq_withDebug` — a flag among arguments is the choice of reports.
* `Request.eq_withDebug_of_insert` — **the flag adds reports to a request and changes nothing
  else.**
* `Request.exists_insert` — there always is a place for the flag.
-/

namespace Ebnf.CommandLine

/-! ### Choices with reports -/

/-- The same choices, with reports of every stage. -/
def Choices.withDebug (c : Choices) : Choices := { c with debug := true }

namespace Choices

@[simp] theorem withDebug_enable (c : Choices) (key : OptionKey) :
    c.withDebug.enable key = (c.enable key).withDebug := by
  cases key <;> rfl

@[simp] theorem withDebug_set (c : Choices) (key : OptionKey) (value : String) :
    c.withDebug.set key value = (c.set key value).map withDebug := by
  cases key with
  | text => cases h : c.input.isSome <;> simp [set, withDebug, h, Except.map]
  | input => cases h : c.text.isSome <;> simp [set, withDebug, h, Except.map]
  | maxDepth =>
    simp only [set]
    cases readInteger? value <;> rfl
  | _ => rfl

end Choices

namespace Progress

/-- The same progress, with reports of every stage. -/
def withDebug (p : Progress) : Progress := { p with choices := p.choices.withDebug }

variable (p : Progress)

@[simp] theorem withDebug_values : p.withDebug.values = p.values := rfl

@[simp] theorem withDebug_choices : p.withDebug.choices = p.choices.withDebug := rfl

end Progress

variable {names : List (String × OptionKey)} {wanted : Nat} {p : Progress}

theorem readLetters_withDebug (p : Progress) (key : OptionKey) (a : Attached)
    (letters : List Char) :
    readLetters names p.withDebug key a letters =
      (readLetters names p key a letters).map (·.withDebug) := by
  fun_induction readLetters names p key a letters with
  | case1 => rfl
  | case2 p key a letter rest h => rw [readLetters, if_pos h]; rfl
  | case3 p key a letter rest h _ hnone =>
    simp only [readLetters, if_neg h, hnone, Progress.withDebug_choices, Choices.withDebug_enable]
    rfl
  | case4 p key a letter h _ _ hkey =>
    simp only [readLetters, if_neg h, hkey, Progress.withDebug_choices, Choices.withDebug_enable]
    rfl
  | case5 p key a letter h _ more hkey =>
    simp only [readLetters, if_neg h, hkey]
    rfl
  | case6 p key a letter h _ _ more _ _ hkey ih =>
    simp only [readLetters, if_neg h, hkey, Progress.withDebug_choices, Choices.withDebug_enable]
    exact ih

theorem readOption_withDebug (p : Progress) (key : OptionKey) (short : Bool)
    (attached : Option Attached) (rest : List (String × Shape)) :
    readOption names p.withDebug key short attached rest =
      (readOption names p key short attached rest).map fun x => (x.1.withDebug, x.2) := by
  have hset (value : String) : p.withDebug.choices.set key value =
      (p.choices.set key value).map Choices.withDebug := Choices.withDebug_set ..
  unfold readOption
  split
  · split
    · rw [hset]
      cases p.choices.set key _ <;> rfl
    · rw [hset]
      cases p.choices.set key _ <;> rfl
    · rfl
  · split
    · rw [Progress.withDebug_choices, Choices.withDebug_enable]
      rfl
    · split
      · rw [readLetters_withDebug]
        cases readLetters names p key _ _ <;> rfl
      · rfl

/-- The choice of reports has no influence on what else is read: reading with it chosen from the
start gives what reading without it gives, with the choice added. -/
theorem readArguments_withDebug (p : Progress) (args : List (String × Shape)) :
    readArguments names wanted p.withDebug args =
      (readArguments names wanted p args).map (·.withDebug) := by
  fun_induction readArguments names wanted p args with
  | case1 p => rw [readArguments]; rfl
  -- an option is stored in the same way, and whether help is asked for is not touched
  | case2 p argument key short attached rest ih =>
    rw [readArguments_option, readOption_withDebug]
    rcases readOption names p key short attached rest with fault | ⟨p', rest'⟩
    · rfl
    · change (if p'.choices.help then .ok p'.withDebug else
          readArguments names wanted p'.withDebug rest'.1) =
        (if p'.choices.help then .ok p' else readArguments names wanted p' rest'.1).map _
      rw [ih, apply_ite (Except.map _)]
      rfl
  -- what is no option fills the same places whether reports are on or not
  | case3 p argument rest ih => rw [readArguments_stranger]; exact ih
  | case4 p argument value rest h ih =>
    rw [readArguments_separator_plain, Progress.withDebug_values, if_pos h]
    exact ih
  | case5 p argument value rest h ih =>
    rw [readArguments_separator_plain, Progress.withDebug_values, if_neg h]
    exact ih
  | case6 p argument rest h ih => rw [readArguments_separator h]; exact ih
  | case7 p argument rest h ih =>
    rw [readArguments_plain, Progress.withDebug_values, if_pos h]
    exact ih
  | case8 p argument rest h ih =>
    rw [readArguments_plain, Progress.withDebug_values, if_neg h]
    exact ih

/-! ### Shapes with the flag -/

/-- What a flag changes in the shapes of arguments.  It keeps its shape before a separator, and is
positional after one. -/
inductive Inserted (flag : String) (shape : Shape) :
    List (String × Shape) → List (String × Shape) → Prop
  /-- No separator stands before the flag. -/
  | before {args rest : List (String × Shape)} (hargs : ∀ x ∈ args, x.2 ≠ .separator)
    (hrest : ∀ argument more, rest = (argument, .separator) :: more → ∃ xs, more = asPlain xs) :
    Inserted flag shape (args ++ rest) (args ++ (flag, shape) :: rest)
  /-- A separator stands before the flag. -/
  | after {args : List (String × Shape)} {argument : String} {xs ys : List String}
    (hargs : ∀ x ∈ args, x.2 ≠ .separator) :
    Inserted flag shape (args ++ (argument, .separator) :: asPlain (xs ++ ys))
      (args ++ (argument, .separator) :: asPlain (xs ++ flag :: ys))

theorem Inserted.cons {flag : String} {shape : Shape} {shaped shaped' : List (String × Shape)}
    {x : String × Shape} (hx : x.2 ≠ .separator) (h : Inserted flag shape shaped shaped') :
    Inserted flag shape (x :: shaped) (x :: shaped') := by
  cases h with
  | before hargs hrest => exact .before (List.forall_mem_cons.mpr ⟨hx, hargs⟩) hrest
  | after hargs => exact .after (List.forall_mem_cons.mpr ⟨hx, hargs⟩)

theorem inserted_of_shapes {flag : String} {shape : Shape}
    (hflag : shapeAmong names flag = .ok shape) (hshape : shape ≠ .separator)
    {before after : List String} {shaped shaped' : List (String × Shape)}
    (h : shapes names (before ++ after) = .ok shaped)
    (h' : shapes names (before ++ flag :: after) = .ok shaped') :
    Inserted flag shape shaped shaped' := by
  induction before generalizing shaped shaped' with
  | nil =>
    -- the flag stands before all arguments, which follow it as they are
    obtain ⟨hseparator, -⟩ | ⟨_, more, hflag', -, hmore, rfl⟩ := shapes_cons_eq_ok_iff.mp h'
    · rw [hflag] at hseparator
      cases hseparator
      exact absurd rfl hshape
    · obtain rfl : shaped = more := Except.ok.inj (h.symm.trans hmore)
      rw [hflag] at hflag'
      cases hflag'
      refine .before (List.forall_mem_nil _) fun argument more heq => ?_
      subst heq
      cases after with
      | nil => cases h
      | cons argument' rest =>
        obtain ⟨-, heq⟩ | ⟨_, _, -, hne, -, heq⟩ := shapes_cons_eq_ok_iff.mp h
        · cases heq
          exact ⟨rest, rfl⟩
        · cases heq
          exact absurd rfl hne
  | cons argument before ih =>
    -- the argument before the flag is seen alike in both, and ends the options in both or neither
    obtain ⟨hseparator, rfl⟩ | ⟨_, _, hargument, hne, hmore, rfl⟩ := shapes_cons_eq_ok_iff.mp h <;>
      obtain ⟨hseparator', rfl⟩ | ⟨_, _, hargument', hne', hmore', rfl⟩ :=
        shapes_cons_eq_ok_iff.mp h'
    · exact .after (List.forall_mem_nil _)
    · rw [hseparator] at hargument'
      cases hargument'
      exact absurd rfl hne'
    · rw [hseparator'] at hargument
      cases hargument
      exact absurd rfl hne
    · rw [hargument] at hargument'
      cases hargument'
      exact (ih hmore hmore').cons hne

/-! ### Readings with the flag -/

/-- Where the flag is an option, it is read at once. -/
theorem readArguments_flag (hp : p.choices.help = false) (flag : String) (short : Bool)
    (rest : List (String × Shape)) :
    readArguments names wanted p ((flag, .option .debug short none) :: rest) =
      readArguments names wanted p.withDebug rest := by
  rw [readArguments_option]
  change (if p.choices.help then _ else _) = _
  rw [hp]
  rfl

theorem eq_withDebug_of_readArguments {q q' : Progress} {args : List (String × Shape)}
    (h : readArguments names wanted p args = .ok q)
    (h' : readArguments names wanted p.withDebug args = .ok q') : q' = q.withDebug := by
  rw [readArguments_withDebug, h] at h'
  cases h'
  rfl

/-- Of two lists of positional arguments that differ in one only one is accepted. -/
theorem Progress.Accepted.false_of_asPlain {flag : String} {xs ys : List String} {q q' : Progress}
    (hq : q.Accepted wanted) (hq' : q'.Accepted wanted)
    (h : readArguments names wanted p (asPlain (xs ++ ys)) = .ok q)
    (h' : readArguments names wanted p (asPlain (xs ++ flag :: ys)) = .ok q') : False := by
  have hlength := hq.length_of_asPlain h
  have hlength' := hq'.length_of_asPlain h'
  rw [List.length_append] at hlength hlength'
  rw [List.length_cons] at hlength'
  omega

/-- A flag among arguments is the choice of reports, if the arguments are accepted with it and
without it. -/
theorem Inserted.eq_withDebug {flag : String} {short : Bool}
    {shaped shaped' : List (String × Shape)}
    (hinserted : Inserted flag (.option .debug short none) shaped shaped') {q q' : Progress}
    (hp : p.choices.help = false) (h : readArguments names wanted p shaped = .ok q)
    (h' : readArguments names wanted p shaped' = .ok q') (hq : q.Accepted wanted)
    (hq' : q'.Accepted wanted) : q' = q.withDebug := by
  -- a reading that ends where it is asked how the program is used is not accepted
  have hself (q : Progress) (hhelp : q.choices.help = true) :
      q.Accepted wanted → q.Accepted wanted → q = q.withDebug :=
    fun hq _ => absurd hhelp (by rw [hq.help_eq]; exact Bool.false_ne_true)
  cases hinserted with
  | @before args rest hargs hrest =>
    refine readArguments_append_rel
      (R := fun q q' => q.Accepted wanted → q'.Accepted wanted → q' = q.withDebug) hself
      (by rintro _ _ ⟨⟩) ?_ ?_ args hargs p q q' hp h h' hq hq'
    · intro p q q' hp h h' _ _
      rw [readArguments_flag hp] at h'
      exact eq_withDebug_of_readArguments h h'
    · -- without the flag, a separator after it goes with the positional argument before it
      intro p q q' hp h h' _ hq'
      change readArguments names wanted p ((flag, .option .debug short none) :: rest) = .ok q' at h'
      rw [readArguments_flag hp] at h'
      rcases skipSeparator_eq_or rest with hskip | ⟨argument, hskip⟩
      · rw [hskip] at h
        exact eq_withDebug_of_readArguments h h'
      · obtain ⟨xs, hxs⟩ := hrest argument _ hskip
        rw [hskip, hxs] at h'
        rw [hxs] at h
        exact eq_withDebug_of_readArguments h (hq'.asPlain_of_separator h')
  | @after args argument xs ys hargs =>
    -- after a separator the flag is one positional argument more than are accepted
    refine readArguments_append_rel
      (R := fun q q' => q.Accepted wanted → q'.Accepted wanted → q' = q.withDebug) hself
      (by rintro _ _ ⟨⟩) ?_ ?_ args hargs p q q' hp h h' hq hq'
    · intro p q q' _ h h' hq hq'
      exact (hq.false_of_asPlain hq' (hq.asPlain_of_separator h)
        (hq'.asPlain_of_separator h')).elim
    · intro p q q' _ h h' hq hq'
      exact (hq.false_of_asPlain hq' h h').elim

/-! ### Commands with the flag -/

theorem shapeAmong_debug (c : Command) {flag : String} (hflag : flag ∈ OptionKey.debug.names) :
    ∃ short, shapeAmong c.optionNames flag = .ok (.option .debug short none) := by
  obtain rfl | rfl : flag = "-D" ∨ flag = "--debug" := by simpa [OptionKey.names] using hflag
  · exact ⟨true, by cases c <;> rfl⟩
  · exact ⟨false, by cases c <;> rfl⟩

theorem Command.eq_withDebug_of_readAll {c : Command} {flag : String}
    (hflag : flag ∈ OptionKey.debug.names) {before after : List String} {p p' : Progress}
    (h : c.readAll (before ++ after) = .ok p) (h' : c.readAll (before ++ flag :: after) = .ok p')
    (hhelp : p.choices.help = false) (hhelp' : p'.choices.help = false)
    (hextras : p.extras = []) (hextras' : p'.extras = []) : p' = p.withDebug := by
  obtain ⟨shaped, hshaped, hread, hsupplied⟩ := readAll_eq_ok_iff.mp h
  obtain ⟨shaped', hshaped', hread', hsupplied'⟩ := readAll_eq_ok_iff.mp h'
  obtain ⟨short, hshape⟩ := shapeAmong_debug c hflag
  have haccepted {p : Progress} (hhelp : p.choices.help = false) (hextras : p.extras = [])
      (hsupplied : p.choices.help = true ∨ c.Supplied p) : p.Accepted c.positionals.length :=
    ⟨hhelp, hextras, (hsupplied.resolve_left (by simp [hhelp])).values⟩
  exact (inserted_of_shapes hshape Shape.noConfusion hshaped hshaped').eq_withDebug rfl hread
    hread' (haccepted hhelp hextras hsupplied) (haccepted hhelp' hextras' hsupplied')

/-- Directly after the command there is a place for the flag. -/
theorem Command.readAll_flag {c : Command} {flag : String} (hflag : flag ∈ OptionKey.debug.names)
    {args : List String} {p : Progress} (h : c.readAll args = .ok p) :
    c.readAll (flag :: args) = .ok p.withDebug := by
  obtain ⟨shaped, hshaped, hread, hsupplied⟩ := readAll_eq_ok_iff.mp h
  obtain ⟨short, hshape⟩ := shapeAmong_debug c hflag
  refine readAll_eq_ok_iff.mpr ⟨_, shapes_cons_eq_ok_iff.mpr
    (Or.inr ⟨_, shaped, hshape, Shape.noConfusion, hshaped, rfl⟩), ?_, ?_⟩
  · rw [readArguments_flag rfl, readArguments_withDebug, hread]
    rfl
  · exact hsupplied.imp id fun h => ⟨h.values, h.source⟩

/-! ### The command among the arguments -/

section Opening

variable {flag argument : String}

/-- What a flag changes in the command that is found, the arguments after it, and those left over:
it is an argument of the command, or it is left over. -/
inductive FlagFound (flag : String) :
    Option (String × List String) × List String → Option (String × List String) × List String → Prop
  /-- The flag stands after the command. -/
  | after (name : String) (xs ys extras : List String) :
    FlagFound flag (some (name, xs ++ ys), extras) (some (name, xs ++ flag :: ys), extras)
  /-- The flag stands before the command. -/
  | before (found : Option (String × List String)) {extras extras' : List String}
    (hextras : extras' ≠ []) : FlagFound flag (found, extras) (found, extras')
  /-- There is no command. -/
  | none (extras : List String) (found' : Option (String × List String) × List String) :
    FlagFound flag (.none, extras) found'

theorem FlagFound.cons {found found' : Option (String × List String) × List String}
    (h : FlagFound flag found found') :
    FlagFound flag (found.1, argument :: found.2) (found'.1, argument :: found'.2) := by
  cases h with
  | after name xs ys extras => exact .after name xs ys (argument :: extras)
  | before found => exact .before found (List.cons_ne_nil _ _)
  | none => exact .none _ _

theorem flagFound_append {end₁ end₂ : List (String × Shape)} {xs ys : List String}
    (h₁ : end₁.map (·.1) = xs ++ ys) (h₂ : end₂.map (·.1) = xs ++ flag :: ys)
    (hends : FlagFound flag (findCommand end₁) (findCommand end₂)) {args : List (String × Shape)}
    (hargs : ∀ x ∈ args, x.2 ≠ .separator) :
    FlagFound flag (findCommand (args ++ end₁)) (findCommand (args ++ end₂)) := by
  -- induction on what stands before the end, none of which separates
  induction args with
  | nil => exact hends
  | cons x args ih =>
    obtain ⟨hx, hargs'⟩ := List.forall_mem_cons.mp hargs
    -- a command found there is the same in both, with the flag among what it gets
    have hfound (argument : String) :
        FlagFound flag (some (argument, (args ++ end₁).map (·.1)), [])
          (some (argument, (args ++ end₂).map (·.1)), []) := by
      rw [List.map_append, List.map_append, h₁, h₂, ← List.append_assoc, ← List.append_assoc]
      exact .after _ _ _ _
    obtain ⟨argument, shape⟩ := x
    cases shape with
    | plain =>
      rw [List.cons_append, List.cons_append, findCommand_plain, findCommand_plain]
      exact hfound argument
    | separator => exact absurd rfl hx
    | option =>
      rw [List.cons_append, List.cons_append, findCommand_option, findCommand_option]
      exact hfound argument
    | stranger => exact (ih hargs').cons

theorem flagFound_of_inserted {shaped shaped' : List (String × Shape)}
    (h : Inserted flag .stranger shaped shaped') :
    FlagFound flag (findCommand shaped) (findCommand shaped') := by
  cases h with
  | @before args rest hargs =>
    have hends : FlagFound flag (findCommand rest) (findCommand ((flag, .stranger) :: rest)) :=
      .before (findCommand rest).1 (List.cons_ne_nil flag (findCommand rest).2)
    exact flagFound_append (List.nil_append _).symm rfl hends hargs
  | @after args argument xs ys hargs =>
    have hfst (zs : List String) :
        ((argument, Shape.separator) :: asPlain (xs ++ zs)).map (·.1) = (argument :: xs) ++ zs := by
      rw [List.map_cons, map_fst_asPlain, List.cons_append]
    refine flagFound_append (hfst ys) (hfst (flag :: ys)) ?_ hargs
    rcases Decidable.em (xs ++ ys = []) with hnil | hne
    · rw [hnil]
      exact .none _ _
    · have hne' : xs ++ flag :: ys ≠ [] := List.append_ne_nil_of_right_ne_nil xs (by simp)
      rw [findCommand_separator_asPlain argument hne, findCommand_separator_asPlain argument hne']
      exact .after _ _ _ _

end Opening

theorem shapeAmong_global {flag : String} (hflag : flag ∈ OptionKey.debug.names) :
    shapeAmong globalOptions flag = .ok .stranger := by
  obtain rfl | rfl : flag = "-D" ∨ flag = "--debug" := by simpa [OptionKey.names] using hflag
  · rfl
  · rfl

/-- Where an option stands before the command, it asks how the program is used, or is at fault. -/
theorem asksUsage_option_ne_ok_false (argument : String) {key : OptionKey} {short : Bool}
    {attached : Option Attached} (rest : List (String × Shape)) :
    asksUsage ((argument, .option key short attached) :: rest) ≠ .ok false := by
  change (readOption globalOptions .start key short attached []).map (fun _ => true) ≠ .ok false
  cases readOption globalOptions .start key short attached []
  · rintro ⟨⟩
  · rintro ⟨⟩

/-- There is a place for the flag directly after the command. -/
theorem exists_shapes_flag {flag : String} (hflag : flag ∈ OptionKey.debug.names)
    {args : List String} {shaped : List (String × Shape)} {name : String}
    {rest extras : List String} (hshaped : shapes globalOptions args = .ok shaped)
    (husage : asksUsage shaped = .ok false)
    (hfind : findCommand shaped = (some (name, rest), extras)) :
    ∃ before, args = before ++ rest ∧ ∃ shaped',
      shapes globalOptions (before ++ flag :: rest) = .ok shaped' ∧ asksUsage shaped' = .ok false ∧
      findCommand shaped' = (some (name, flag :: rest), extras) := by
  induction args generalizing shaped extras with
  | nil =>
    cases hshaped
    cases hfind
  | cons argument args ih =>
    -- the command may stand behind a separator, be plain, or come later
    obtain ⟨hargument, rfl⟩ | ⟨shape, more, hargument, hne, hmore, rfl⟩ :=
      shapes_cons_eq_ok_iff.mp hshaped
    · -- behind the separator the command is the next argument, and the flag is put behind that
      cases args with
      | nil => cases hfind
      | cons next args =>
        have hrest := findCommand_separator_asPlain argument (List.cons_ne_nil next args)
        rw [hrest] at hfind
        cases hfind
        exact ⟨[name], rfl, _, shapes_cons_eq_ok_iff.mpr (Or.inl ⟨hargument, rfl⟩), rfl,
          findCommand_separator_asPlain name (List.cons_ne_nil flag _)⟩
    · cases shape with
      | plain =>
        -- the flag is put behind the command itself
        rw [findCommand_plain, map_fst_shapes hmore] at hfind
        cases hfind
        have hmore' := shapes_cons_eq_ok_iff.mpr
          (Or.inr ⟨_, more, shapeAmong_global hflag, Shape.noConfusion, hmore, rfl⟩)
        refine ⟨[name], rfl, _,
          shapes_cons_eq_ok_iff.mpr (Or.inr ⟨_, _, hargument, hne, hmore', rfl⟩), rfl, ?_⟩
        rw [findCommand_plain, List.map_cons, map_fst_shapes hmore]
      | separator => exact absurd rfl hne
      | option key short attached => exact absurd husage (asksUsage_option_ne_ok_false _ _)
      | stranger =>
        -- what is not known is passed over, and the command comes later
        rw [findCommand_stranger] at hfind
        obtain ⟨hfound, rfl⟩ := Prod.mk.inj hfind
        obtain ⟨before, rfl, shaped', hshaped', husage', hfind'⟩ :=
          ih hmore husage (Prod.ext hfound rfl)
        refine ⟨argument :: before, rfl, _,
          shapes_cons_eq_ok_iff.mpr (Or.inr ⟨_, _, hargument, hne, hshaped', rfl⟩), husage', ?_⟩
        rw [findCommand_stranger, hfind']

/-! ### Requests with the flag -/

/-- The same request, with reports of every stage. -/
def Request.withDebug : Request → Request
  | .check file _ => .check file true
  | .rules file all _ => .rules file all true
  | .matchText file rule source maxDepth full json _ =>
    .matchText file rule source maxDepth full json true

theorem Command.request_withDebug (c : Command) (p : Progress) :
    c.request p.withDebug = (c.request p).withDebug := by
  cases c <;> rfl

/-- **The flag adds reports to a request and changes nothing else.**  Where a request is made of
arguments with the flag and of those without it, the two differ in this choice only. -/
theorem Request.eq_withDebug_of_insert {flag : String} (hflag : flag ∈ OptionKey.debug.names)
    {before after : List String} {request request' : Request}
    (h : Request.ofArguments (before ++ after) = .ok request)
    (h' : Request.ofArguments (before ++ flag :: after) = .ok request') :
    request' = request.withDebug := by
  obtain @⟨shaped, name, rest, extras, c, p, hshaped, -, hfind, hname, hread, hhelp, hextras⟩ :=
    ofArguments_eq_ok_iff.mp h
  obtain @⟨shaped', name', rest', extras', c', p', hshaped', -, hfind', hname', hread', hhelp',
    hextras'⟩ := ofArguments_eq_ok_iff.mp h'
  have hinserted : Inserted flag .stranger shaped shaped' :=
    inserted_of_shapes (shapeAmong_global hflag) Shape.noConfusion hshaped hshaped'
  have hfound := flagFound_of_inserted hinserted
  rw [hfind, hfind'] at hfound
  cases hfound with
  | after _ xs ys =>
    obtain rfl : c = c' := Option.some.inj (hname.symm.trans hname')
    rw [← c.request_withDebug, Command.eq_withDebug_of_readAll hflag hread hread' hhelp hhelp'
      (List.append_eq_nil_iff.mp hextras).2 (List.append_eq_nil_iff.mp hextras').2]
  | before _ hne =>
    -- a flag before the command is left over
    exact absurd (List.append_eq_nil_iff.mp hextras').1 hne

/-- There always is a place for the flag: directly after the command, where it is neither the value
of an option nor behind a separator. -/
theorem Request.exists_insert {flag : String} (hflag : flag ∈ OptionKey.debug.names)
    {args : List String} {request : Request} (h : Request.ofArguments args = .ok request) :
    ∃ before after, args = before ++ after ∧
      Request.ofArguments (before ++ flag :: after) = .ok request.withDebug := by
  obtain @⟨shaped, name, rest, extras, c, p, hshaped, husage, hfind, hname, hread, hhelp,
    hextras⟩ := ofArguments_eq_ok_iff.mp h
  obtain ⟨before, rfl, shaped', hshaped', husage', hfind'⟩ :=
    exists_shapes_flag hflag hshaped husage hfind
  refine ⟨before, rest, rfl, ofArguments_eq_ok_iff.mpr ?_⟩
  rw [← c.request_withDebug]
  exact .command hshaped' husage' hfind' hname (Command.readAll_flag hflag hread) hhelp hextras

end Ebnf.CommandLine
