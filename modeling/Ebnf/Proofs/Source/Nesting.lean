import Ebnf.Proofs.Source.Cutting
import Ebnf.Proofs.Source.Scanning

/-!
# Nested brackets

Which texts have all their literals and brackets closed is stated here as a grammar, without reading
anything: between other characters a balanced text has literals, and brackets with balanced texts in
them.  A scan ends with nothing open exactly for these texts.  Otherwise it ends within brackets,
within a literal, or at a closer that answers no open bracket of its kind, and each of these ends
can be told from the text as well.

## Main definitions

* `Source.Ordinary` — the characters that are neither quotes nor brackets.
* `Source.Balanced` — the texts in which literals are closed and brackets nested.
* `Source.LeavesOpen` — the brackets that a text leaves open.
* `Source.ClosesWrongly`, `Source.EndsInLiteral` — a wrong closer, and a literal without end.

## Main results

* `Source.closed_iff_balanced` — **a scan ends with nothing open exactly for balanced texts.**
* `Source.scan_eq_leavesOpen_iff` — it ends within the brackets that the text leaves open.
* `Source.scan_eq_none_iff` — it breaks off at the first wrong closer.
* `Source.exists_scan_eq_literal_iff` — it ends within a literal that has no end.
-/

namespace Ebnf.Source

/-! ### Balanced texts -/

/-- A character that is neither a quote nor a bracket. -/
def Ordinary (c : Char) : Prop := c ≠ '"' ∧ ∀ b : Bracket, c ≠ b.opener ∧ c ≠ b.closer

/-- All literals of the text are closed, and outside literals every bracket is closed by one of its
kind and encloses a balanced text. -/
inductive Balanced : List Char → Prop
  /-- Nothing. -/
  | nil : Balanced []
  /-- Any other character. -/
  | char {c : Char} {rest : List Char} (hc : Ordinary c) (h : Balanced rest) : Balanced (c :: rest)
  /-- A literal. -/
  | literal {body rest : List Char} (hbody : LiteralBody body) (h : Balanced rest) :
    Balanced ('"' :: (body ++ '"' :: rest))
  /-- A bracket. -/
  | bracket (b : Bracket) {inner rest : List Char} (hinner : Balanced inner)
    (h : Balanced rest) : Balanced (b.opener :: (inner ++ b.closer :: rest))

/-- The text leaves the brackets open, the innermost first, and is balanced before, between and
behind them. -/
inductive LeavesOpen : List Bracket → List Char → Prop
  /-- No bracket. -/
  | nothing {text : List Char} (h : Balanced text) : LeavesOpen [] text
  /-- One more bracket. -/
  | bracket (b : Bracket) {opened : List Bracket} {before inner : List Char}
    (hbefore : LeavesOpen opened before) (hinner : Balanced inner) :
    LeavesOpen (b :: opened) (before ++ b.opener :: inner)

/-- The closer is the first one that does not answer the innermost open bracket. -/
def ClosesWrongly (text : List Char) (c : Char) : Prop :=
  ∃ before after opened, ∃ b : Bracket, text = before ++ c :: after ∧ c = b.closer ∧
    LeavesOpen opened before ∧ opened.head? ≠ some b

/-- No closer in the text is wrong, and its last literal has no end. -/
def EndsInLiteral (text : List Char) : Prop :=
  ∃ before after opened, text = before ++ '"' :: after ∧ LeavesOpen opened before ∧
    StaysOpen .literal after

theorem ordinary_iff {c : Char} : Ordinary c ↔ c ≠ '"' ∧ Neutral .plain c := by
  refine and_congr_right fun _ => ⟨fun h _ => ⟨?_, ?_⟩, fun h b => ⟨?_, ?_⟩⟩
  · rcases hc : Bracket.ofOpener? c with _ | b
    · rfl
    · exact absurd (Bracket.eq_opener_of_ofOpener? hc) (h b).1
  · rcases hc : Bracket.ofCloser? c with _ | b
    · rfl
    · exact absurd (Bracket.eq_closer_of_ofCloser? hc) (h b).2
  · rintro rfl
    have hnone := (h rfl).1
    rw [Bracket.ofOpener?_opener] at hnone
    cases hnone
  · rintro rfl
    have hnone := (h rfl).2
    rw [Bracket.ofCloser?_closer] at hnone
    cases hnone

/-- A character separates, when it is the separator, if it has no other role. -/
theorem separates_self_iff {sep : Char} : separates sep sep = true ↔ Ordinary sep := by
  rw [ordinary_iff, Neutral]
  simp [separates, and_assoc]

instance (c : Char) : Decidable (Ordinary c) := decidable_of_iff _ separates_self_iff

/-! ### Scans of parts -/

section Scan

variable {stop : Char → Bool} {mode mode' : Mode} {opened opened' : List Bracket}
  {text rest : List Char}

/-- A closer is wrong where the innermost bracket is of another kind, or none is open. -/
theorem step_closer_of_ne {b : Bracket} (h : opened.head? ≠ some b) :
    step .plain opened b.closer = none := by
  rw [step, Bracket.track, ofOpener?_closer, Bracket.ofCloser?_closer]
  cases opened with
  | nil => rfl
  | cons inner outer => exact if_neg fun heq => h (congrArg some heq)

theorem step_eq_none {c : Char} (h : step mode opened c = none) :
    mode = .plain ∧ ∃ b : Bracket, c = b.closer ∧ opened.head? ≠ some b := by
  cases mode with
  | literal => cases h
  | escape => cases h
  | plain =>
    rcases hcloser : Bracket.ofCloser? c with _ | b
    · rw [step, Bracket.track, hcloser] at h
      rcases hopener : Bracket.ofOpener? c with _ | b <;> rw [hopener] at h <;> cases h
    · obtain rfl := Bracket.eq_closer_of_ofCloser? hcloser
      refine ⟨rfl, b, rfl, fun hhead => ?_⟩
      obtain ⟨outer, rfl⟩ := List.head?_eq_some_iff.mp hhead
      rw [step_closer] at h
      cases h

/-- A scan of a text comes by the end of each of its parts. -/
theorem exists_scan_of_append {r : Mode × List Bracket} : ∀ {text : List Char} {mode : Mode}
    {opened : List Bracket}, scan stop mode opened (text ++ rest) = some r →
    ∃ mode' opened', scan stop mode opened text = some (mode', opened') ∧
      scan stop mode' opened' rest = some r := by
  intro text
  induction text with
  | nil => exact fun h => ⟨_, _, scan_nil, h⟩
  | cons c text ih =>
    intro mode opened h
    obtain ⟨hstop, opened₁, hstep, h⟩ := scan_cons_eq_some h
    obtain ⟨mode', opened', htext, hrest⟩ := ih h
    exact ⟨mode', opened', (scan_cons_of_step hstop hstep).trans htext, hrest⟩

/-- What is open around a text stays open. -/
theorem scan_under (outer : List Bracket)
    (h : scan never mode opened text = some (mode', opened')) :
    scan never mode (opened ++ outer) text = some (mode', opened' ++ outer) := by
  induction outer generalizing opened opened' with
  | nil => rwa [List.append_nil, List.append_nil]
  | cons b outer ih =>
    have hstep := ih (scan_within b h)
    rwa [List.append_assoc, List.append_assoc] at hstep

theorem Closed.scan_eq (h : Closed text) (opened : List Bracket) :
    scan never .plain opened text = some (.plain, opened) :=
  scan_under opened h

/-- The literal that a scan leaves is closed. -/
theorem exists_quote_of_scan (h : scan stop .literal opened text = some (.plain, opened')) :
    ∃ body rest, text = body ++ '"' :: rest ∧ LiteralBody body ∧
      scan stop .plain opened rest = some (.plain, opened') := by
  -- the scan leaves the literal where the search finds its quote
  fun_induction closingQuote? text with
  | case1 =>
    rw [scan_nil] at h
    cases h
  | case2 c rest ih =>
    rw [scan_literal_cons] at h
    obtain ⟨body, rest, rfl, hbody, hrest⟩ := ih (scan_escape_cons.symm.trans h)
    exact ⟨'\\' :: c :: body, rest, rfl, .escaped c hbody, hrest⟩
  | case3 rest =>
    rw [scan_literal_cons] at h
    exact ⟨[], rest, rfl, .nil, h⟩
  | case4 c rest hbackslash hquote ih =>
    by_cases hc : c = '\\'
    · -- a backslash takes the next character along, but there is none
      subst hc
      cases rest with
      | nil =>
        rw [scan_literal_cons, scan_nil] at h
        cases h
      | cons d rest => exact absurd rfl (hbackslash d rest rfl)
    · rw [scan_literal_cons, Mode.next, if_neg hquote, if_neg hc] at h
      obtain ⟨body, rest, rfl, hbody, hrest⟩ := ih h
      exact ⟨c :: body, rest, rfl, .char hquote hc hbody, hrest⟩

/-- The innermost bracket that a scan leaves open was open before, or it opens in the text and what
follows is closed. -/
theorem exists_opener_of_scan (b : Bracket) : ∀ {text : List Char} {mode : Mode}
    {stack : List Bracket}, scan never mode stack text = some (.plain, b :: opened) →
    (∃ inner, stack = inner ++ b :: opened ∧ scan never mode inner text = some (.plain, [])) ∨
      ∃ before inner, text = before ++ b.opener :: inner ∧
        scan never mode stack before = some (.plain, opened) ∧ Closed inner := by
  intro text
  induction text with
  | nil =>
    intro mode stack h
    rw [scan_nil] at h
    cases h
    exact Or.inl ⟨[], rfl, scan_nil⟩
  | cons c text ih =>
    intro mode stack h
    obtain ⟨-, stack', hstep, h⟩ := scan_cons_eq_some h
    have hgo : ∀ {stack stack' : List Bracket} {text : List Char} {r : Mode × List Bracket},
        step mode stack c = some stack' → scan never (mode.next c) stack' text = some r →
        scan never mode stack (c :: text) = some r :=
      fun hstep h => (scan_cons_of_step (by simp [never]) hstep).trans h
    -- the bracket was open behind this character, or it opens in what follows
    rcases ih h with ⟨inner, rfl, hinner⟩ | ⟨before, inner, rfl, hbefore, hinner⟩
    · rcases step_eq_some hstep with ⟨b', rfl, rfl, heq⟩ | ⟨b', rfl, rfl, rfl⟩ | ⟨hneutral, rfl⟩
      · rw [next_opener] at hinner
        cases inner with
        | nil =>
          -- this is where the bracket opens
          cases heq
          exact Or.inr ⟨[], text, rfl, scan_nil, hinner⟩
        | cons _ inner =>
          cases heq
          refine Or.inl ⟨inner, rfl, hgo (step_opener inner b') ?_⟩
          rwa [next_opener]
      · exact Or.inl ⟨b' :: inner, rfl, hgo (step_closer inner b') hinner⟩
      · exact Or.inl ⟨inner, rfl, hgo (step_of_neutral hneutral inner) hinner⟩
    · exact Or.inr ⟨c :: before, inner, rfl, hgo hstep hbefore, hinner⟩

/-- A scan that breaks off does so at a closer that answers no innermost bracket. -/
theorem exists_closer_of_scan_eq_none : ∀ {text : List Char} {mode : Mode}
    {opened : List Bracket}, scan never mode opened text = none →
    ∃ before after opened', ∃ b : Bracket, text = before ++ b.closer :: after ∧
      scan never mode opened before = some (.plain, opened') ∧ opened'.head? ≠ some b := by
  intro text
  induction text with
  | nil =>
    intro mode opened h
    rw [scan_nil] at h
    cases h
  | cons c text ih =>
    intro mode opened h
    rcases hstep : step mode opened c with _ | opened₁
    · obtain ⟨rfl, b, rfl, hhead⟩ := step_eq_none hstep
      exact ⟨[], text, opened, b, rfl, scan_nil, hhead⟩
    · rw [scan_cons_of_step (by simp [never]) hstep] at h
      obtain ⟨before, after, opened', b, rfl, hbefore, hhead⟩ := ih h
      exact ⟨c :: before, after, opened', b, rfl,
        (scan_cons_of_step (by simp [never]) hstep).trans hbefore, hhead⟩

/-- Within a literal no bracket counts. -/
theorem StaysOpen.scan_eq : ∀ {text : List Char} {mode : Mode}, StaysOpen mode text →
    scan never mode opened text = some (mode.after text, opened) := by
  intro text
  induction text with
  | nil => exact fun _ => scan_nil
  | cons c text ih =>
    intro mode h
    have hmode : mode ≠ .plain := h [] List.nil_prefix
    have hneutral : Neutral mode c := fun hplain => absurd hplain hmode
    rw [scan_cons_of_step (by simp [never]) (step_of_neutral hneutral opened), Mode.after_cons]
    exact ih ((staysOpen_cons hmode).mp h)

end Scan

/-! ### What scans end with -/

/-- Balanced texts leave nothing open, so a scan of them ends as it began. -/
theorem Balanced.closed {text : List Char} (h : Balanced text) : Closed text := by
  induction h with
  | nil => exact scan_nil
  | char hc _ ih =>
    obtain ⟨hquote, hneutral⟩ := ordinary_iff.mp hc
    exact (scan_cons_of_neutral hneutral hquote rfl).trans ih
  | @literal body rest hbody _ ih =>
    have hquoted := @scan_append never .plain [] rest _ _ _ (hbody.scan_quoted rfl)
    rw [List.cons_append, List.append_assoc] at hquoted
    exact hquoted.trans ih
  | @bracket b inner rest _ _ ihinner ihrest =>
    have hbracket := @scan_append never .plain [] rest _ _ _
      (ihinner.scan_bracketed b rfl)
    rw [List.cons_append, List.append_assoc] at hbracket
    exact hbracket.trans ihrest

/-- Texts that leave nothing open are balanced: a bracket encloses what stands before the closer
that a scan finds for it. -/
theorem Closed.balanced {text : List Char} (h : Closed text) : Balanced text := by
  -- induction on the length of the text, since a bracket is followed by two shorter ones
  induction hn : text.length using Nat.strongRecOn generalizing text with
  | ind n ih =>
    subst hn
    cases text with
    | nil => exact .nil
    | cons c text =>
      obtain ⟨-, opened, hstep, hrest⟩ := scan_cons_eq_some h
      rcases step_eq_some hstep with ⟨b, -, rfl, -⟩ | ⟨b, -, -, hnil⟩ | ⟨hneutral, rfl⟩
      · obtain ⟨inner, after, rfl, hinner, hafter⟩ := h.exists_closer
        refine .bracket b (ih _ ?_ hinner rfl) (ih _ ?_ hafter rfl) <;>
          simp only [List.length_cons, List.length_append] <;> omega
      · cases hnil
      · by_cases hquote : c = '"'
        · subst hquote
          obtain ⟨body, rest, rfl, hbody, hafter⟩ := exists_quote_of_scan hrest
          refine .literal hbody (ih _ ?_ hafter rfl)
          simp only [List.length_cons, List.length_append]
          omega
        · rw [Mode.next_plain hquote] at hrest
          exact .char (ordinary_iff.mpr ⟨hquote, hneutral⟩) (ih _ (Nat.lt_succ_self _) hrest rfl)

/-- **A scan ends with nothing open exactly for balanced texts.** Balance is told by the brackets
and literals of a text, and a scan by a stack. -/
theorem closed_iff_balanced {text : List Char} : Closed text ↔ Balanced text :=
  ⟨Closed.balanced, Balanced.closed⟩

/-- A scan ends within the brackets that the text leaves open, the innermost on top of the stack. -/
theorem scan_eq_leavesOpen_iff {text : List Char} {opened : List Bracket} :
    scan never .plain [] text = some (.plain, opened) ↔ LeavesOpen opened text := by
  constructor
  · intro h
    induction opened generalizing text with
    | nil => exact .nothing (Closed.balanced h)
    | cons b opened ih =>
      rcases exists_opener_of_scan b h with ⟨inner, hnil, -⟩ | ⟨before, inner, rfl, hbefore, hinner⟩
      · cases inner <;> cases hnil
      · exact .bracket b (ih hbefore) hinner.balanced
  · intro h
    induction h with
    | nothing h => exact h.closed
    | @bracket b opened before inner _ hinner ih =>
      rw [scan_append ih, scan_opener]
      exact hinner.closed.scan_eq (b :: opened)

/-- A scan breaks off at the first wrong closer, whatever follows it. -/
theorem scan_eq_none_iff {text : List Char} :
    scan never .plain [] text = none ↔ ∃ c, ClosesWrongly text c := by
  constructor
  · intro h
    obtain ⟨before, after, opened, b, rfl, hbefore, hhead⟩ := exists_closer_of_scan_eq_none h
    exact ⟨_, before, after, opened, b, rfl, rfl, scan_eq_leavesOpen_iff.mp hbefore, hhead⟩
  · rintro ⟨_, before, after, opened, b, rfl, rfl, hbefore, hhead⟩
    rw [scan_append (scan_eq_leavesOpen_iff.mpr hbefore), scan_cons, if_neg (by simp [never]),
      step_closer_of_ne hhead]
    rfl

/-- A scan ends within a literal that has no end, if no wrong closer stands before it. -/
theorem exists_scan_eq_literal_iff {text : List Char} :
    (∃ mode opened, mode ≠ .plain ∧ scan never .plain [] text = some (mode, opened)) ↔
      EndsInLiteral text := by
  constructor
  · rintro ⟨mode, opened, hmode, h⟩
    have hopen : openQuote? text ≠ none := by
      rw [Ne, openQuote?_eq_none_iff, after_of_scan h]
      exact hmode
    obtain ⟨place, hplace⟩ := Option.ne_none_iff_exists'.mp hopen
    obtain ⟨before, ⟨after, rfl, hbefore, hopen⟩, -⟩ := openQuote?_eq_some_iff.mp hplace
    obtain ⟨mode', opened', hscan, -⟩ := exists_scan_of_append h
    obtain rfl : .plain = mode' := hbefore.symm.trans (after_of_scan hscan)
    exact ⟨before, after, opened', rfl, scan_eq_leavesOpen_iff.mp hscan, hopen⟩
  · rintro ⟨before, after, opened, rfl, hbefore, hopen⟩
    have hneutral : Neutral .plain '"' := fun _ => ⟨rfl, rfl⟩
    refine ⟨Mode.after .literal after, opened, hopen _ List.prefix_rfl, ?_⟩
    rw [scan_append (scan_eq_leavesOpen_iff.mpr hbefore), scan_cons_of_step (by simp [never])
      (step_of_neutral hneutral opened), Mode.next_plain_quote, hopen.scan_eq]

end Ebnf.Source
