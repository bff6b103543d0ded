import Ebnf.Source.Split

/-!
# Scanning a text

Splitting a text and looking for the ends of literals and brackets are readings from left to right
that all keep the same account: whether the place is in a literal, and which brackets are open.
`scan` is that account alone.  Splitting is a scan that begins a new piece at each separator, and
looking for the end of a bracket counts the brackets that the scan has open.

## Main definitions

* `Source.step` — the open brackets after one more character, in any mode.
* `Source.scan` — mode and open brackets after a text without certain characters outside brackets.
* `Source.Closed`, `Source.Solid` — texts in which nothing is open at the end.
* `Source.LiteralBody` — what may stand between the quotes of a literal.

## Main results

* `Source.closingQuote?_eq_some_iff` — the quote found is the one that ends the literal.
* `Source.closingBracketFrom?_of_scan`, `Source.exists_closer_of_scan` — **the bracket found by
  counting is the one that answers the opener, of the same kind.**
* `Source.solid_of_splitFrom`, `Source.splitFrom_append` — pieces are solid, and solid texts are
  pieces.
-/

namespace Ebnf.Source

/-! ### Steps -/

/-- The open brackets after one more character.  Within literals they stay the same. -/
def step (mode : Mode) (opened : List Bracket) (c : Char) : Option (List Bracket) :=
  match mode with
  | .plain => Bracket.track opened c
  | .literal | .escape => some opened

/-- A character that is no bracket where it stands. -/
def Neutral (mode : Mode) (c : Char) : Prop :=
  mode = .plain → Bracket.ofOpener? c = none ∧ Bracket.ofCloser? c = none

theorem ofOpener?_closer (b : Bracket) : Bracket.ofOpener? b.closer = none := by
  cases b <;> rfl

theorem next_opener (b : Bracket) : Mode.next .plain b.opener = .plain := by
  cases b <;> rfl

theorem next_closer (b : Bracket) : Mode.next .plain b.closer = .plain := by
  cases b <;> rfl

@[simp] theorem step_opener (opened : List Bracket) (b : Bracket) :
    step .plain opened b.opener = some (b :: opened) := by
  rw [step, Bracket.track, Bracket.ofOpener?_opener]

@[simp] theorem step_closer (opened : List Bracket) (b : Bracket) :
    step .plain (b :: opened) b.closer = some opened := by
  simp [step, Bracket.track, ofOpener?_closer]

theorem step_of_neutral {mode : Mode} {c : Char} (h : Neutral mode c) (opened : List Bracket) :
    step mode opened c = some opened := by
  cases mode with
  | plain =>
    obtain ⟨hopener, hcloser⟩ := h rfl
    rw [step, Bracket.track, hopener, hcloser]
  | literal => rfl
  | escape => rfl

/-- A character opens a bracket, closes the innermost one, or is neutral. -/
theorem step_eq_some {mode : Mode} {opened opened' : List Bracket} {c : Char}
    (h : step mode opened c = some opened') :
    (∃ b : Bracket, mode = .plain ∧ c = b.opener ∧ opened' = b :: opened) ∨
    (∃ b : Bracket, mode = .plain ∧ c = b.closer ∧ opened = b :: opened') ∨
    (Neutral mode c ∧ opened' = opened) := by
  cases mode with
  | literal => exact Or.inr (Or.inr ⟨nofun, (Option.some.inj h).symm⟩)
  | escape => exact Or.inr (Or.inr ⟨nofun, (Option.some.inj h).symm⟩)
  | plain =>
    rw [step, Bracket.track] at h
    -- outside literals the stack of brackets decides
    rcases hopener : Bracket.ofOpener? c with _ | b
    · rcases hcloser : Bracket.ofCloser? c with _ | b
      · rw [hopener, hcloser] at h
        exact Or.inr (Or.inr ⟨fun _ => ⟨hopener, hcloser⟩, (Option.some.inj h).symm⟩)
      · rw [hopener, hcloser] at h
        cases opened with
        | nil => cases h
        | cons inner outer =>
          dsimp only at h
          split at h
          · next heq =>
            refine Or.inr (Or.inl ⟨b, rfl, Bracket.eq_closer_of_ofCloser? hcloser, ?_⟩)
            rw [heq, Option.some.inj h]
          · cases h
    · rw [hopener] at h
      exact Or.inl ⟨b, rfl, Bracket.eq_opener_of_ofOpener? hopener, (Option.some.inj h).symm⟩

/-! ### Scans -/

/-- Mode and open brackets after a text in which every closer answers the innermost bracket that is
open, and no character to stop at stands outside brackets and literals. -/
def scan (stop : Char → Bool) : Mode → List Bracket → List Char → Option (Mode × List Bracket)
  | mode, opened, [] => some (mode, opened)
  | mode, opened, c :: rest =>
    if mode = .plain ∧ opened = [] ∧ stop c = true then none
    else (step mode opened c).bind fun opened' => scan stop (mode.next c) opened' rest

/-- No character to stop at. -/
def never : Char → Bool := fun _ => false

/-- At the end of the text no literal and no bracket is open. -/
def Closed (text : List Char) : Prop := scan never .plain [] text = some (.plain, [])

/-- The same, and the separator stands only in literals and brackets. -/
def Solid (sep : Char) (text : List Char) : Prop :=
  scan (separates sep) .plain [] text = some (.plain, [])

section Scan

variable {stop stop' : Char → Bool} {mode mode' : Mode} {opened opened' : List Bracket}
  {c : Char} {text rest : List Char}

@[simp] theorem scan_nil : scan stop mode opened [] = some (mode, opened) := by
  cases mode <;> rfl

theorem scan_cons : scan stop mode opened (c :: rest) =
    if mode = .plain ∧ opened = [] ∧ stop c = true then none
    else (step mode opened c).bind fun opened' => scan stop (mode.next c) opened' rest := by
  cases mode <;> rfl

/-- A step of a scan that does not stop. -/
theorem scan_cons_of_step (hstop : ¬(mode = .plain ∧ opened = [] ∧ stop c = true))
    (h : step mode opened c = some opened') :
    scan stop mode opened (c :: rest) = scan stop (mode.next c) opened' rest := by
  rw [scan_cons, if_neg hstop, h, Option.bind_some]

theorem scan_cons_eq_some {r : Mode × List Bracket}
    (h : scan stop mode opened (c :: rest) = some r) :
    ¬(mode = .plain ∧ opened = [] ∧ stop c = true) ∧
      ∃ opened', step mode opened c = some opened' ∧
        scan stop (mode.next c) opened' rest = some r := by
  rw [scan_cons] at h
  split at h
  · cases h
  · next hstop => exact ⟨hstop, Option.bind_eq_some_iff.mp h⟩

theorem scan_opener {b : Bracket} :
    scan never .plain opened (b.opener :: text) = scan never .plain (b :: opened) text := by
  rw [scan_cons_of_step (by simp [never]) (step_opener opened b), next_opener]

theorem scan_literal_cons : scan stop .literal opened (c :: rest) =
    scan stop (Mode.next .literal c) opened rest :=
  scan_cons_of_step (by simp) rfl

theorem scan_escape_cons : scan stop .escape opened (c :: rest) =
    scan stop .literal opened rest :=
  scan_cons_of_step (by simp) rfl

/-- A character that is neither a bracket nor a quote nor to stop at changes nothing. -/
theorem scan_cons_of_neutral (hneutral : Neutral .plain c) (hquote : c ≠ '"')
    (hstop : stop c = false) :
    scan stop .plain opened (c :: rest) = scan stop .plain opened rest := by
  rw [scan_cons_of_step (by simp [hstop]) (step_of_neutral hneutral _), Mode.next_plain hquote]

theorem scan_append : ∀ {text : List Char} {mode : Mode} {opened : List Bracket},
    scan stop mode opened text = some (mode', opened') →
    scan stop mode opened (text ++ rest) = scan stop mode' opened' rest := by
  intro text
  induction text with
  | nil =>
    intro mode opened h
    rw [scan_nil] at h
    cases h
    rfl
  | cons c text ih =>
    intro mode opened h
    obtain ⟨hstop, opened₁, hstep, h⟩ := scan_cons_eq_some h
    rw [List.cons_append, scan_cons_of_step hstop hstep]
    exact ih h

/-- Within a bracket a scan does not stop. -/
theorem scan_within (b : Bracket) : ∀ {text : List Char} {mode : Mode} {opened : List Bracket},
    scan stop' mode opened text = some (mode', opened') →
    scan stop mode (opened ++ [b]) text = some (mode', opened' ++ [b]) := by
  intro text
  induction text with
  | nil =>
    intro mode opened h
    rw [scan_nil] at h
    cases h
    exact scan_nil
  | cons c text ih =>
    intro mode opened h
    obtain ⟨-, opened₁, hstep, h⟩ := scan_cons_eq_some h
    have hstop : ¬(mode = .plain ∧ opened ++ [b] = [] ∧ stop c = true) := by simp
    refine (scan_cons_of_step hstop ?_).trans (ih h)
    rcases step_eq_some hstep with ⟨b', rfl, rfl, rfl⟩ | ⟨b', rfl, rfl, rfl⟩ | ⟨hneutral, rfl⟩
    · exact step_opener _ b'
    · exact step_closer _ b'
    · exact step_of_neutral hneutral _

theorem scan_never_of_scan : ∀ {text : List Char} {mode : Mode} {opened : List Bracket}
    {r : Mode × List Bracket}, scan stop mode opened text = some r →
    scan never mode opened text = some r := by
  intro text
  induction text with
  | nil => exact fun h => by rwa [scan_nil] at h ⊢
  | cons c text ih =>
    intro mode opened r h
    obtain ⟨-, opened₁, hstep, h⟩ := scan_cons_eq_some h
    exact (scan_cons_of_step (by simp [never]) hstep).trans (ih h)

/-- A scan goes through the same modes as reading. -/
theorem after_of_scan : ∀ {text : List Char} {mode : Mode} {opened : List Bracket}
    {r : Mode × List Bracket}, scan stop mode opened text = some r → mode.after text = r.1 := by
  intro text
  induction text with
  | nil =>
    intro mode opened r h
    rw [scan_nil] at h
    cases h
    rfl
  | cons c text ih =>
    intro mode opened r h
    obtain ⟨-, opened', -, h⟩ := scan_cons_eq_some h
    exact ih h

theorem scan_of_neutral : ∀ {text : List Char},
    (∀ c ∈ text, Neutral .plain c ∧ c ≠ '"' ∧ stop c = false) →
    scan stop .plain opened text = some (.plain, opened) := by
  intro text
  induction text with
  | nil => exact fun _ => scan_nil
  | cons c text ih =>
    intro h
    obtain ⟨hneutral, hquote, hstop⟩ := h c List.mem_cons_self
    rw [scan_cons_of_neutral hneutral hquote hstop]
    exact ih fun d hd => h d (List.mem_cons_of_mem _ hd)

end Scan

theorem Solid.closed {sep : Char} {text : List Char} (h : Solid sep text) : Closed text :=
  scan_never_of_scan h

theorem Closed.after_eq {text : List Char} (h : Closed text) : Mode.after .plain text = .plain :=
  after_of_scan h

/-- A closed text in a bracket is closed, and nothing in it is outside brackets. -/
theorem Closed.scan_bracketed {stop : Char → Bool} {text : List Char} (h : Closed text)
    (b : Bracket) (hstop : stop b.opener = false) :
    scan stop .plain [] (b.opener :: (text ++ [b.closer])) = some (.plain, []) := by
  have hwithin : scan stop .plain ([] ++ [b]) text = some (.plain, [] ++ [b]) := scan_within b h
  rw [scan_cons_of_step (by simp [hstop]) (step_opener [] b), next_opener]
  refine (scan_append hwithin).trans ?_
  rw [List.nil_append, scan_cons_of_step (by simp) (step_closer [] b), next_closer, scan_nil]

/-! ### Literals -/

/-- What may stand between the quotes of a literal: a quote and a backslash only after a
backslash. -/
inductive LiteralBody : List Char → Prop
  /-- Nothing. -/
  | nil : LiteralBody []
  /-- A character that stands for itself. -/
  | char {c : Char} {body : List Char} (hquote : c ≠ '"') (hbackslash : c ≠ '\\')
    (h : LiteralBody body) : LiteralBody (c :: body)
  /-- A backslash takes the next character along. -/
  | escaped (c : Char) {body : List Char} (h : LiteralBody body) : LiteralBody ('\\' :: c :: body)

/-- The body of a literal does not lead out of it. -/
theorem LiteralBody.scan_eq {stop : Char → Bool} {opened : List Bracket} {body : List Char}
    (h : LiteralBody body) (rest : List Char) :
    scan stop .literal opened (body ++ rest) = scan stop .literal opened rest := by
  induction h with
  | nil => rfl
  | char hquote hbackslash _ ih =>
    rw [List.cons_append, scan_literal_cons, Mode.next, if_neg hquote, if_neg hbackslash]
    exact ih
  | escaped c _ ih =>
    rw [List.cons_append, List.cons_append, scan_literal_cons]
    exact scan_escape_cons.trans ih

/-- A literal as a whole changes nothing. -/
theorem LiteralBody.scan_quoted {stop : Char → Bool} {body : List Char} (h : LiteralBody body)
    (hstop : stop '"' = false) :
    scan stop .plain [] ('"' :: (body ++ ['"'])) = some (.plain, []) := by
  have hneutral : Neutral .plain '"' := fun _ => ⟨rfl, rfl⟩
  rw [scan_cons_of_step (by simp [hstop]) (step_of_neutral hneutral []), Mode.next_plain_quote,
    h.scan_eq, scan_literal_cons]
  rfl

/-- The quote found is the one that ends the literal: what stands before it is the inside of a
literal. -/
theorem closingQuote?_eq_some_iff {text : List Char} {n : Nat} :
    closingQuote? text = some n ↔
      ∃ body after, text = body ++ '"' :: after ∧ LiteralBody body ∧ body.length = n := by
  constructor
  · intro h
    -- forwards along the search for the quote
    fun_induction closingQuote? text generalizing n with
    | case1 => cases h
    | case2 c rest ih =>
      obtain ⟨m, hm, rfl⟩ := Option.map_eq_some_iff.mp h
      obtain ⟨body, after, rfl, hbody, rfl⟩ := ih hm
      exact ⟨'\\' :: c :: body, after, rfl, .escaped c hbody, rfl⟩
    | case3 rest =>
      cases h
      exact ⟨[], rest, rfl, .nil, rfl⟩
    | case4 c rest hbackslash hquote ih =>
      obtain ⟨m, hm, rfl⟩ := Option.map_eq_some_iff.mp h
      obtain ⟨body, after, rfl, hbody, rfl⟩ := ih hm
      refine ⟨c :: body, after, rfl, .char hquote ?_ hbody, rfl⟩
      -- a backslash would have taken the next character along
      rintro rfl
      cases body with
      | nil => exact hbackslash '"' after rfl rfl
      | cons d body => exact hbackslash d (body ++ '"' :: after) rfl rfl
  · rintro ⟨body, after, rfl, hbody, rfl⟩
    -- and backwards along the literal's characters
    induction hbody with
    | nil => rfl
    | @char c body hquote hbackslash _ ih =>
      rw [List.cons_append, closingQuote?.eq_3 _ _ (fun _ _ hc _ => hbackslash hc), if_neg hquote,
        ih]
      rfl
    | escaped c _ ih =>
      rw [List.cons_append, List.cons_append, closingQuote?, ih]
      rfl

/-! ### Brackets -/

theorem closingBracketFrom?_opener (b : Bracket) (depth : Int) (rest : List Char) :
    closingBracketFrom? .plain depth (b.opener :: rest) =
      (closingBracketFrom? .plain (depth + 1) rest).map (· + 1) := by
  rw [closingBracketFrom?, Bracket.ofOpener?_opener]
  rfl

theorem closingBracketFrom?_closer (b : Bracket) (depth : Int) (rest : List Char) :
    closingBracketFrom? .plain depth (b.closer :: rest) =
      if depth = 1 then some 0 else (closingBracketFrom? .plain (depth - 1) rest).map (· + 1) := by
  rw [closingBracketFrom?, ofOpener?_closer, Bracket.ofCloser?_closer]
  rfl

theorem closingBracketFrom?_of_neutral {mode : Mode} {c : Char} (h : Neutral mode c) (depth : Int)
    (rest : List Char) : closingBracketFrom? mode depth (c :: rest) =
      (closingBracketFrom? (mode.next c) depth rest).map (· + 1) := by
  cases mode with
  | plain =>
    obtain ⟨hopener, hcloser⟩ := h rfl
    rw [closingBracketFrom?, hopener, hcloser]
    rfl
  | literal => rfl
  | escape => rfl

/-- The count of open brackets is one more than the scan of what they enclose has open, so it comes
to zero just behind that. -/
theorem closingBracketFrom?_of_scan (b : Bracket) (after : List Char) : ∀ {inner : List Char}
    {mode : Mode} {opened : List Bracket}, scan never mode opened inner = some (.plain, []) →
    closingBracketFrom? mode (opened.length + 1) (inner ++ b.closer :: after)
      = some inner.length := by
  intro inner
  induction inner with
  | nil =>
    intro mode opened h
    rw [scan_nil] at h
    cases h
    rw [List.nil_append, closingBracketFrom?_closer]
    rfl
  | cons c inner ih =>
    intro mode opened h
    obtain ⟨-, opened', hstep, h⟩ := scan_cons_eq_some h
    have hrest := ih h
    rw [List.cons_append, List.length_cons]
    -- the count goes up and down with the open brackets and so is not yet one at a closer
    rcases step_eq_some hstep with ⟨b', rfl, rfl, rfl⟩ | ⟨b', rfl, rfl, rfl⟩ | ⟨hneutral, rfl⟩
    · rw [next_opener, List.length_cons, Int.natCast_succ] at hrest
      rw [closingBracketFrom?_opener, hrest]
      rfl
    · rw [next_closer] at hrest
      have hdepth : ((b' :: opened').length + 1 : Int) - 1 = opened'.length + 1 := by
        rw [List.length_cons]
        omega
      rw [closingBracketFrom?_closer, if_neg (by rw [List.length_cons]; omega), hdepth, hrest]
      rfl
    · rw [closingBracketFrom?_of_neutral hneutral, hrest]
      rfl

/-- A text that closes the bracket around it does so with the closer of that bracket. -/
theorem exists_closer_of_scan (b : Bracket) : ∀ {text : List Char} {mode : Mode}
    {opened : List Bracket}, scan never mode (opened ++ [b]) text = some (.plain, []) →
    ∃ inner after, text = inner ++ b.closer :: after ∧
      scan never mode opened inner = some (.plain, []) ∧ Closed after := by
  intro text
  induction text with
  | nil =>
    intro mode opened h
    rw [scan_nil] at h
    exact absurd (congrArg Prod.snd (Option.some.inj h)) (by simp)
  | cons c text ih =>
    intro mode opened h
    obtain ⟨-, opened', hstep, h⟩ := scan_cons_eq_some h
    have hgo : ∀ opened₁ inner, step mode opened c = some opened₁ →
        scan never (mode.next c) opened₁ inner = some (.plain, []) →
        scan never mode opened (c :: inner) = some (.plain, []) :=
      fun opened₁ inner hstep h => (scan_cons_of_step (by simp [never]) hstep).trans h
    rcases step_eq_some hstep with ⟨b', rfl, rfl, rfl⟩ | ⟨b', rfl, rfl, heq⟩ | ⟨hneutral, rfl⟩
    · obtain ⟨inner, after, rfl, hinner, hafter⟩ := @ih _ (b' :: opened) h
      exact ⟨_ :: inner, after, rfl, hgo _ inner (step_opener opened b') hinner, hafter⟩
    · cases opened with
      | nil =>
        -- the bracket itself is closed here, by its own kind
        cases heq
        rw [next_closer] at h
        exact ⟨[], text, rfl, scan_nil, h⟩
      | cons b'' outer =>
        cases heq
        obtain ⟨inner, after, rfl, hinner, hafter⟩ := ih h
        exact ⟨_ :: inner, after, rfl, hgo _ inner (step_closer outer b') hinner, hafter⟩
    · obtain ⟨inner, after, rfl, hinner, hafter⟩ := ih h
      exact ⟨c :: inner, after, rfl, hgo _ inner (step_of_neutral hneutral _) hinner, hafter⟩

/-- The bracket around a closed text is found by counting. -/
theorem bracketEnd?_of_closed (b : Bracket) {inner : List Char} (h : Closed inner)
    (after : List Char) :
    bracketEnd? (b.opener :: (inner ++ b.closer :: after)) 0 = some (inner.length + 1) := by
  have hcount : closingBracketFrom? .plain (0 + 1) (inner ++ b.closer :: after)
      = some inner.length := closingBracketFrom?_of_scan b after h
  rw [bracketEnd?, List.drop_zero, closingBracketFrom?_opener, hcount, Option.map_some,
    Option.map_some, Nat.zero_add]

/-- In a closed text that begins with an opener the closer of its kind answers it. -/
theorem Closed.exists_closer {b : Bracket} {rest : List Char} (h : Closed (b.opener :: rest)) :
    ∃ inner after, rest = inner ++ b.closer :: after ∧ Closed inner ∧ Closed after := by
  have hrest : scan never .plain ([] ++ [b]) rest = some (.plain, []) := scan_opener.symm.trans h
  exact exists_closer_of_scan b hrest

/-- A closed text that is one bracket to its end, by counting, ends with the closer of its kind. -/
theorem eq_append_closer_of_bracketEnd? {b : Bracket} {rest : List Char}
    (hclosed : Closed (b.opener :: rest))
    (hend : bracketEnd? (b.opener :: rest) 0 = some rest.length) :
    ∃ inner, rest = inner ++ [b.closer] ∧ Closed inner := by
  obtain ⟨inner, after, rfl, hinner, -⟩ := hclosed.exists_closer
  rw [bracketEnd?_of_closed b hinner, Option.some.injEq, List.length_append,
    List.length_cons] at hend
  have hnil : after = [] := List.length_eq_zero_iff.mp (by omega)
  exact ⟨inner, by rw [hnil], hinner⟩

/-! ### Pieces -/

section Split

variable {sep : Char} {mode mode' : Mode} {opened opened' : List Bracket} {text rest : List Char}

theorem splitFrom_nil : splitFrom sep .plain [] [] = .ok ([], []) := rfl

theorem separates_opener (sep : Char) (b : Bracket) : separates sep b.opener = false := by
  simp [separates]

/-- A separator leaves a scan where it is. -/
theorem step_of_separates {c : Char} (h : separates sep c = true) :
    step .plain opened c = some opened ∧ Mode.next .plain c = .plain := by
  simp only [separates, Bool.and_eq_true, decide_eq_true_eq, Option.isNone_iff_eq_none] at h
  obtain ⟨⟨⟨-, hquote⟩, hopener⟩, hcloser⟩ := h
  exact ⟨step_of_neutral (fun _ => ⟨hopener, hcloser⟩) opened, Mode.next_plain hquote⟩

/-- Splitting at a separator, which belongs to no piece and begins a new one. -/
theorem splitFrom_cons_sep {c : Char} (h : separates sep c = true) :
    splitFrom sep .plain [] (c :: rest) =
      (fun (piece, pieces) => ([], piece :: pieces)) <$> splitFrom sep .plain [] rest := by
  rw [splitFrom, if_pos ⟨h, rfl⟩]

/-- Splitting goes on over any other character. -/
theorem splitFrom_cons_of_step {c : Char}
    (hstop : ¬(mode = .plain ∧ opened = [] ∧ separates sep c = true))
    (h : step mode opened c = some opened') :
    splitFrom sep mode opened (c :: rest) =
      (fun (piece, pieces) => (c :: piece, pieces)) <$>
        splitFrom sep (mode.next c) opened' rest := by
  cases mode with
  | plain =>
    have hno : ¬(separates sep c = true ∧ opened = []) := fun hc => hstop ⟨rfl, hc.2, hc.1⟩
    have htrack : Bracket.track opened c = some opened' := h
    rw [splitFrom, if_neg hno, htrack]
  | literal | escape =>
    cases h
    rfl

/-- A closer that answers no bracket ends the splitting. -/
theorem splitFrom_cons_of_step_eq_none {c : Char} (h : step mode opened c = none) :
    splitFrom sep mode opened (c :: rest) = .error (.unexpectedCloser c) := by
  cases mode with
  | plain =>
    have hno : ¬(separates sep c = true ∧ opened = []) := by
      rintro ⟨hsep, -⟩
      rw [(step_of_separates hsep).1] at h
      cases h
    have htrack : Bracket.track opened c = none := h
    rw [splitFrom, if_neg hno, htrack]
  | literal => cases h
  | escape => cases h

/-- Splitting goes over a text without separators in one piece, which becomes the beginning of the
piece that follows. -/
theorem splitFrom_append : ∀ {text : List Char} {mode : Mode} {opened : List Bracket},
    scan (separates sep) mode opened text = some (mode', opened') →
    splitFrom sep mode opened (text ++ rest) =
      (fun (piece, pieces) => (text ++ piece, pieces)) <$> splitFrom sep mode' opened' rest := by
  intro text
  induction text with
  | nil =>
    intro mode opened h
    rw [scan_nil] at h
    cases h
    exact (id_map _).symm
  | cons c text ih =>
    intro mode opened h
    obtain ⟨hstop, opened₁, hstep, h⟩ := scan_cons_eq_some h
    rw [List.cons_append, splitFrom_cons_of_step hstop hstep, ih h, Functor.map_map]
    rfl

/-- Pieces are solid: no separator stands in them outside literals and brackets, and none of these
is left open. -/
theorem solid_of_splitFrom : ∀ {text : List Char} {mode : Mode} {opened : List Bracket}
    {piece : List Char} {pieces : List (List Char)},
    splitFrom sep mode opened text = .ok (piece, pieces) →
    scan (separates sep) mode opened piece = some (.plain, []) ∧ ∀ p ∈ pieces, Solid sep p := by
  intro text
  induction text with
  | nil =>
    intro mode opened piece pieces h
    cases mode with
    | plain =>
      cases opened with
      | nil =>
        cases h
        exact ⟨rfl, by simp⟩
      | cons b opened => cases h
    | literal => cases h
    | escape => cases h
  | cons c text ih =>
    intro mode opened piece pieces h
    -- at a separator a new piece begins, with nothing read of it
    by_cases hstop : mode = .plain ∧ opened = [] ∧ separates sep c = true
    · obtain ⟨rfl, rfl, hsep⟩ := hstop
      rw [splitFrom_cons_sep hsep] at h
      obtain ⟨⟨p, ps⟩, hrest, heq⟩ := exists_of_map_eq_ok h
      cases heq
      obtain ⟨hp, hps⟩ := ih hrest
      refine ⟨scan_nil, fun q hq => ?_⟩
      rcases List.mem_cons.mp hq with rfl | hq
      · exact hp
      · exact hps q hq
    · -- any other character goes to the piece that has begun
      rcases hstep : step mode opened c with _ | opened₁
      · rw [splitFrom_cons_of_step_eq_none hstep] at h
        cases h
      · rw [splitFrom_cons_of_step hstop hstep] at h
        obtain ⟨⟨p, ps⟩, hrest, heq⟩ := exists_of_map_eq_ok h
        cases heq
        obtain ⟨hp, hps⟩ := ih hrest
        exact ⟨(scan_cons_of_step hstop hstep).trans hp, hps⟩

end Split

/-- The pieces of a text are solid. -/
theorem solid_of_mem_splitTop {sep : Char} {text : List Char} {pieces : List (List Char)}
    (h : splitTop sep text = .ok pieces) : ∀ p ∈ pieces, Solid sep p := by
  obtain ⟨⟨first, others⟩, hsplit, rfl⟩ := exists_of_map_eq_ok h
  obtain ⟨hfirst, hothers⟩ := solid_of_splitFrom hsplit
  intro p hp
  rcases List.mem_cons.mp hp with rfl | hp
  · exact hfirst
  · exact hothers p hp

/-- A solid text is one piece when it is split at the separator. -/
theorem splitTop_of_solid {sep : Char} {text : List Char} (h : Solid sep text) :
    splitTop sep text = .ok [text] := by
  have hsplit := @splitFrom_append sep .plain [] [] text .plain [] h
  rw [List.append_nil, splitFrom_nil] at hsplit
  rw [splitTop, hsplit]
  exact congrArg (fun p => Except.ok [p]) (List.append_nil text)

/-- A solid text before a separator is the first piece. -/
theorem splitTop_append {sep : Char} (hsep : separates sep sep = true) {text rest : List Char}
    (h : Solid sep text) {pieces : List (List Char)} (hrest : splitTop sep rest = .ok pieces) :
    splitTop sep (text ++ sep :: rest) = .ok (text :: pieces) := by
  obtain ⟨⟨first, others⟩, hsplit, rfl⟩ := exists_of_map_eq_ok hrest
  rw [splitTop, splitFrom_append h, splitFrom_cons_sep hsep, hsplit]
  exact congrArg (fun p => Except.ok (p :: first :: others)) (List.append_nil text)

end Ebnf.Source
