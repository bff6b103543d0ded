import Ebnf.Proofs.Source.Scanning
import Ebnf.Proofs.Source.Layout
import Ebnf.Source.Pass

/-!
# What passes find out

A pass goes over the text by positions, has a mark for the literal it is in and jumps over what a
backslash takes along.  What it is to find out is said by recursion on the text, with a mode that
knows of the backslash too.  The two come to the same: from each visit on a pass has the answer that
reading on from there in the mode for its mark has.  Within literals all passes do the same, so that
half of the argument is made only once.

## Main definitions

* `Source.Loop.Runs` — how a pass goes on from a visit, round by round.
* `Source.LiteralRound` — what any pass does with a character in a literal.
* `Source.Loop.Computes` — reading on answers as the rounds of a pass do.

## Main results

* `Source.Loop.Computes.answer_eq` — a pass has the answer that is due at each of its visits.
* `Source.Pass.run_answer` — **a pass finds out what it is for.**
* `Source.quoteLoop_answer` — and so does the one for the end of a literal.
-/

namespace Ebnf.Source

open Text (Position isBlank isBlankText strip)

variable {σ ρ : Type} {text : List Char} {p : Nat} {c : Char}

/-! ### Characters at positions -/

theorem lt_length_of_getElem? (hc : text[p]? = some c) : p < text.length :=
  (List.getElem?_eq_some_iff.mp hc).1

theorem drop_of_getElem? (hc : text[p]? = some c) : text.drop p = c :: text.drop (p + 1) := by
  obtain ⟨hp, rfl⟩ := List.getElem?_eq_some_iff.mp hc
  exact List.drop_eq_getElem_cons hp

theorem take_of_getElem? (hc : text[p]? = some c) : text.take (p + 1) = text.take p ++ [c] := by
  rw [List.take_add_one, hc, Option.toList_some]

/-- A piece goes on to the next character. -/
theorem drop_take_of_getElem? (hc : text[p]? = some c) {start : Nat} (h : start ≤ p) :
    (text.take (p + 1)).drop start = (text.take p).drop start ++ [c] := by
  have hp := lt_length_of_getElem? hc
  rw [take_of_getElem? hc, List.drop_append_of_le_length (by rw [List.length_take]; omega)]

/-- A count from a later position is as much more from this one. -/
theorem map_add_map (n? : Option Nat) (p k : Nat) :
    (n?.map (· + k)).map (p + ·) = n?.map (p + k + ·) := by
  rw [Option.map_map]
  congr 1
  funext n
  simp only [Function.comp]
  omega

theorem after_take_of_getElem? (hc : text[p]? = some c) (place : Position) :
    place.after (text.take (p + 1)) = (place.after (text.take p)).advance c := by
  rw [take_of_getElem? hc, Position.after_append]
  rfl

/-! ### Runs -/

/-- How a pass goes on from a visit: the visits that follow, with the answer in the end. -/
inductive Loop.Runs (loop : Loop σ ρ) (text : List Char) : Visit → σ → List Visit → ρ → Prop
  /-- It is at the end of the text. -/
  | ended {v : Visit} {state : σ} (h : text.length ≤ v.position) :
    Runs loop text v state [v] (loop.finish text v.inLiteral state)
  /-- It has its answer. -/
  | done {v : Visit} {state : σ} {c : Char} {answer : ρ} (hc : text[v.position]? = some c)
    (h : loop.round text v c state = .done answer) : Runs loop text v state [v] answer
  /-- It goes on. -/
  | next {v : Visit} {state state' : σ} {c : Char} {skipped : Nat} {inLiteral : Bool}
    {visits : List Visit} {answer : ρ} (hc : text[v.position]? = some c)
    (h : loop.round text v c state = .next skipped inLiteral state')
    (hrest : Runs loop text ⟨v.position + 1 + skipped, inLiteral⟩ state' visits answer) :
    Runs loop text v state (v :: visits) answer

/-- A pass runs in rounds. -/
theorem Loop.runs (loop : Loop σ ρ) (text : List Char) (v : Visit) (state : σ) :
    loop.Runs text v state (loop.run text v state).1 (loop.run text v state).2 := by
  -- induction on what is left of the text
  induction hn : text.length - v.position using Nat.strongRecOn generalizing v state with
  | ind n ih =>
    by_cases hv : v.position < text.length
    · have hc : text[v.position]? = some text[v.position] := List.getElem?_eq_getElem hv
      rw [Loop.run, dif_pos hv]
      cases hround : loop.round text v text[v.position] state with
      | next skipped inLiteral state' => exact .next hc hround (ih _ (by simp only; omega) _ _ rfl)
      | done answer => exact .done hc hround
    · rw [Loop.run, dif_neg hv]
      exact .ended (by omega)

/-! ### Rounds within literals -/

/-- What a pass that keeps what it reads by `push` does with a character in a literal.  It does not
matter how it goes on behind a backslash with which the text ends. -/
inductive LiteralRound (text : List Char) (push : σ → Char → σ) (p : Nat) (state : σ) :
    Char → Round σ ρ → Prop
  /-- A quote ends the literal. -/
  | closes : LiteralRound text push p state '"' (.next 0 false (push state '"'))
  /-- A character stands for itself. -/
  | char {c : Char} (hquote : c ≠ '"') (hbackslash : c ≠ '\\') :
    LiteralRound text push p state c (.next 0 true (push state c))
  /-- A backslash takes the next character along. -/
  | escaped {d : Char} (hd : text[p + 1]? = some d) :
    LiteralRound text push p state '\\' (.next 1 true (push (push state '\\') d))
  /-- There is none to be taken along. -/
  | last {skipped : Nat} (h : text.length ≤ p + 1) :
    LiteralRound text push p state '\\' (.next skipped true (push state '\\'))

/-- In literals a pass does what all passes do. -/
def Loop.ReadsLiterals (loop : Loop σ ρ) (push : σ → Char → σ) : Prop :=
  ∀ text p c state, text[p]? = some c →
    LiteralRound text push p state c (loop.round text ⟨p, true⟩ c state)

/-- Nothing is kept. -/
def skip (state : σ) (_ : Char) : σ := state

/-- Everything is kept. -/
def copied (out : List Char) (c : Char) : List Char := out ++ [c]

theorem Round.within_spec (state : σ) :
    LiteralRound text skip p state c (Round.within c state : Round σ ρ) := by
  unfold Round.within
  by_cases hbackslash : c = '\\'
  · subst hbackslash
    rw [if_pos rfl]
    by_cases hp : p + 1 < text.length
    · exact .escaped (List.getElem?_eq_getElem hp)
    · exact .last (by omega)
  · rw [if_neg hbackslash]
    by_cases hquote : c = '"'
    · subst hquote
      exact .closes
    · rw [if_neg hquote]
      exact .char hquote hbackslash

theorem Round.copy_spec (hc : text[p]? = some c) (out : List Char) :
    LiteralRound text copied p out c (Round.copy text p c out : Round (List Char) ρ) := by
  unfold Round.copy
  by_cases hbackslash : c = '\\'
  · subst hbackslash
    by_cases hp : p + 1 < text.length
    · have hout : out ++ ['\\', text[p + 1]] = copied (copied out '\\') text[p + 1] := by
        simp [copied]
      rw [dif_pos ⟨rfl, hp⟩, hout]
      exact .escaped (List.getElem?_eq_getElem hp)
    · rw [dif_neg (fun h => hp h.2), if_neg (by decide)]
      exact .last (by omega)
  · rw [dif_neg (fun h => hbackslash h.1)]
    by_cases hquote : c = '"'
    · subst hquote
      exact .closes
    · rw [if_neg hquote]
      exact .char hquote hbackslash

theorem readsLiterals_commentLoop : commentLoop.ReadsLiterals copied :=
  fun _ _ _ out hc => Round.copy_spec hc out

theorem readsLiterals_blankLoop : blankLoop.ReadsLiterals copied :=
  fun _ _ _ out hc => Round.copy_spec hc out

theorem readsLiterals_statementLoop : statementLoop.ReadsLiterals skip :=
  fun _ _ _ state _ => Round.within_spec state

theorem readsLiterals_findLoop (target : Char) : (findLoop target).ReadsLiterals skip :=
  fun _ _ _ state _ => Round.within_spec state

theorem readsLiterals_splitLoop (sep : Char) : (splitLoop sep).ReadsLiterals skip :=
  fun _ _ _ state _ => Round.within_spec state

theorem readsLiterals_bracketLoop : bracketLoop.ReadsLiterals skip :=
  fun _ _ _ depth _ => Round.within_spec depth

/-! ### What the rounds come to -/

/-- The mode of a reading that is marked so. -/
def Mode.ofMark : Bool → Mode
  | true => .literal
  | false => .plain

/-- The answer is the one that is due, or it is due in the state in which the pass goes on. -/
def Round.Meets (due : ρ) (later : Mode → Nat → σ → ρ) (Inv : Nat → σ → Prop) (p : Nat) :
    Round σ ρ → Prop
  | .next skipped inLiteral state =>
    due = later (.ofMark inLiteral) (p + 1 + skipped) state ∧ Inv (p + 1 + skipped) state
  | .done answer => due = answer

/-- Reading on in a mode, from a position and with a state for which `Inv` holds, answers as the
rounds of a pass do. -/
structure Loop.Computes (loop : Loop σ ρ) (push : σ → Char → σ) (text : List Char)
    (Inv : Nat → σ → Prop) (due : Mode → Nat → σ → ρ) : Prop where
  finish : ∀ mode p state, text.length ≤ p →
    due mode p state = loop.finish text (decide (mode ≠ .plain)) state
  literal : ∀ mode p c state, mode ≠ .plain → text[p]? = some c → Inv p state →
    due mode p state = due (mode.next c) (p + 1) (push state c) ∧ Inv (p + 1) (push state c)
  plain : ∀ p c state, text[p]? = some c → Inv p state →
    (loop.round text ⟨p, false⟩ c state).Meets (due .plain p state) due Inv p

namespace Loop

variable {loop : Loop σ ρ} {push : σ → Char → σ} {Inv : Nat → σ → Prop}
  {due : Mode → Nat → σ → ρ} {v : Visit} {state : σ} {visits : List Visit} {answer : ρ}

theorem Runs.of_le (h : loop.Runs text v state visits answer) (hv : text.length ≤ v.position) :
    visits = [v] ∧ answer = loop.finish text v.inLiteral state := by
  cases h with
  | ended => exact ⟨rfl, rfl⟩
  | done hc | next hc => exact absurd (lt_length_of_getElem? hc) (by omega)

/-- A pass has the answer that is due at each of its visits, if every round passes on what is due
there. The induction is on how the pass runs. -/
theorem Computes.answer_eq (hcomputes : loop.Computes push text Inv due)
    (hreads : loop.ReadsLiterals push) (h : loop.Runs text v state visits answer)
    (hinv : Inv v.position state) : answer = due (.ofMark v.inLiteral) v.position state := by
  -- induction on the visits, with the invariant at each of them
  induction h with
  | @ended v state hv =>
    rw [hcomputes.finish _ _ _ hv]
    rcases v with ⟨p, _ | _⟩ <;> rfl
  | @done v state c answer hc hround =>
    obtain ⟨p, _ | _⟩ := v
    · have hmeets := hcomputes.plain p c state hc hinv
      rw [hround] at hmeets
      exact hmeets.symm
    · -- no pass has its answer within a literal
      have hliteral := hreads text p c state hc
      rw [hround] at hliteral
      cases hliteral
  -- a visit that is followed by another one owes the same answer as that
  | @next v state state' c skipped inLiteral visits answer hc hround hrest ih =>
    obtain ⟨p, _ | _⟩ := v
    · have hmeets := hcomputes.plain p c state hc hinv
      rw [hround] at hmeets
      obtain ⟨hdue, hinv'⟩ := hmeets
      exact (ih hinv').trans hdue.symm
    · have hliteral := hreads text p c state hc
      rw [hround] at hliteral
      have hliteralMode : Mode.literal ≠ .plain := by decide
      obtain ⟨hdue, hinv'⟩ := hcomputes.literal .literal p c state hliteralMode hc hinv
      show answer = due .literal p state
      rw [hdue]
      -- within a literal the pass does what all passes do there
      cases hliteral with
      | closes => exact ih hinv'
      | char hquote hbackslash =>
        rw [Mode.next, if_neg hquote, if_neg hbackslash]
        exact ih hinv'
      | escaped hd =>
        obtain ⟨hdue', hinv''⟩ := hcomputes.literal .escape (p + 1) _ _ (by decide) hd hinv'
        exact (ih hinv'').trans hdue'.symm
      | last hp =>
        rw [(hrest.of_le (by simp only; omega)).2, hcomputes.finish _ _ _ hp]
        rfl

/-- The answer of a pass as a whole is the one that is due at its first visit. -/
theorem Computes.run_answer (hcomputes : loop.Computes push text Inv due)
    (hreads : loop.ReadsLiterals push) (hinv : Inv 0 loop.start) :
    (loop.run text .first loop.start).2 = due .plain 0 loop.start :=
  hcomputes.answer_eq hreads (loop.runs text .first loop.start) hinv

end Loop

/-! ### Looking for a character -/

theorem findLoop_computes (target : Char) (text : List Char) :
    (findLoop target).Computes skip text (fun _ _ => True)
      fun mode p _ => (findPlainFrom? target mode (text.drop p)).map (p + ·) where
  -- at the end of the text the character has not been found
  finish mode p state hp := by
    rw [List.drop_eq_nil_of_le hp]
    cases mode <;> rfl
  -- within a literal it does not count
  literal mode p c state hmode hc _ := by
    have hno : ¬(mode = .plain ∧ c = target ∧ c ≠ '"') := fun h => hmode h.1
    refine ⟨?_, trivial⟩
    rw [drop_of_getElem? hc, findPlainFrom?, if_neg hno, map_add_map]
  plain p c state hc _ := by
    -- outside literals it is found, unless it opens one
    show Round.Meets _ _ _ _ (if c = '"' then _ else if c = target then _ else _)
    rw [drop_of_getElem? hc, findPlainFrom?]
    by_cases hquote : c = '"'
    · rw [if_pos hquote, if_neg (fun h => h.2.2 hquote), hquote, map_add_map]
      exact ⟨rfl, trivial⟩
    · rw [if_neg hquote, Mode.next_plain hquote]
      by_cases htarget : c = target
      · rw [if_pos htarget, if_pos ⟨rfl, htarget, hquote⟩]
        rfl
      · rw [if_neg htarget, if_neg (fun h => htarget h.2.1), map_add_map]
        exact ⟨rfl, trivial⟩

/-! ### Looking for the end of a bracket -/

theorem bracketLoop_computes (text : List Char) :
    bracketLoop.Computes skip text (fun _ _ => True)
      fun mode p depth => (closingBracketFrom? mode depth (text.drop p)).map (p + ·) where
  finish mode p depth hp := by
    rw [List.drop_eq_nil_of_le hp]
    cases mode <;> rfl
  -- within a literal brackets do not count
  literal mode p c depth hmode hc _ := by
    have hneutral : Neutral mode c := fun h => absurd h hmode
    refine ⟨?_, trivial⟩
    rw [drop_of_getElem? hc, closingBracketFrom?_of_neutral hneutral, map_add_map]
    rfl
  plain p c depth hc _ := by
    show Round.Meets _ _ _ _ (if c = '"' then _ else if (Bracket.ofOpener? c).isSome then _ else _)
    rw [drop_of_getElem? hc]
    -- a quote opens a literal and leaves the depth as it is
    by_cases hquote : c = '"'
    · have hneutral : Neutral .plain c := by
        subst hquote
        exact fun _ => ⟨rfl, rfl⟩
      rw [if_pos hquote, closingBracketFrom?_of_neutral hneutral, hquote, map_add_map]
      exact ⟨rfl, trivial⟩
    · rw [if_neg hquote, closingBracketFrom?]
      -- an opener goes one deeper
      by_cases hopener : (Bracket.ofOpener? c).isSome
      · rw [if_pos hopener, if_pos hopener, map_add_map]
        exact ⟨rfl, trivial⟩
      · rw [if_neg hopener, if_neg hopener]
        -- a closer goes one up again, and ends the bracket if it is the outermost
        by_cases hcloser : (Bracket.ofCloser? c).isSome
        · rw [if_pos hcloser, if_pos hcloser]
          by_cases hdepth : depth = 1
          · rw [if_pos hdepth, if_pos (by omega)]
            rfl
          · rw [if_neg hdepth, if_neg (by omega), map_add_map]
            exact ⟨rfl, trivial⟩
        · rw [if_neg hcloser, if_neg hcloser, Mode.next_plain hquote, map_add_map]
          exact ⟨rfl, trivial⟩

/-! ### Dropping blanks -/

theorem blankLoop_computes (text : List Char) :
    blankLoop.Computes copied text (fun _ _ => True)
      fun mode p out => out ++ dropBlanksFrom mode (text.drop p) where
  -- what has been copied so far stands before what is still to come
  finish mode p out hp := by
    rw [List.drop_eq_nil_of_le hp, dropBlanksFrom_nil, List.append_nil]
    rfl
  literal mode p c out hmode hc _ := by
    refine ⟨?_, trivial⟩
    rw [drop_of_getElem? hc, dropBlanksFrom_of_not (fun h => hmode h.1), copied,
      List.append_assoc, List.singleton_append]
  plain p c out hc _ := by
    show Round.Meets _ _ _ _ (if c = '"' then _ else if isBlank c = true then _ else _)
    rw [drop_of_getElem? hc]
    -- a blank is not copied
    by_cases hblank : isBlank c = true
    · have hquote : c ≠ '"' := by
        rintro rfl
        exact absurd hblank (by decide)
      rw [if_neg hquote, if_pos hblank, dropBlanksFrom_of_isBlank hblank]
      exact ⟨rfl, trivial⟩
    · -- every other character is, and a quote opens a literal
      rw [dropBlanksFrom_of_not (fun h => hblank h.2), if_neg hblank]
      by_cases hquote : c = '"'
      · rw [if_pos hquote, hquote]
        exact ⟨by simp [Mode.ofMark], trivial⟩
      · rw [if_neg hquote, Mode.next_plain hquote]
        exact ⟨by simp [Mode.ofMark], trivial⟩

/-! ### Dropping comments -/

/-- What is left of a character is kept with what is left before it. -/
theorem map_cons_strip (out : List Char) (c : Char) (rest : Except Position (List Char)) :
    (out ++ ·) <$> (c :: ·) <$> rest = (copied out c ++ ·) <$> rest := by
  cases rest with
  | error place => rfl
  | ok rest => exact congrArg Except.ok (List.append_cons out c rest)

/-- A comment is cut off as a whole. -/
theorem strip_comment_of_drop {body tail : List Char} (hbody : ¬['*', ')'] <:+: body)
    (h : text.drop p = '(' :: '*' :: (body ++ '*' :: ')' :: tail)) (out : List Char) :
    (out ++ ·) <$> stripCommentsFrom .plain (Position.first.after (text.take p)) (text.drop p) =
      ((out ++ commentTrace body) ++ ·) <$> stripCommentsFrom .plain
        (Position.first.after (text.take (p + 1 + (body.length + 3))))
        (text.drop (p + 1 + (body.length + 3))) := by
  let comment := '(' :: '*' :: (body ++ ['*', ')'])
  have hcomment : text.drop p = comment ++ tail := by simp [h, comment]
  have hlength : p + 1 + (body.length + 3) = p + comment.length := by
    simp only [comment, List.length_cons, List.length_append, List.length_nil]
    omega
  rw [hlength, List.take_add, ← List.drop_drop, hcomment, List.take_left, List.drop_left,
    Position.after_append, ← hcomment, h, stripCommentsFrom_comment hbody]
  generalize stripCommentsFrom .plain _ tail = rest
  cases rest with
  | error place => rfl
  | ok rest => exact congrArg Except.ok (List.append_assoc out _ rest).symm

theorem commentLoop_computes (text : List Char) :
    commentLoop.Computes copied text (fun _ _ => True) fun mode p out =>
      (out ++ ·) <$> stripCommentsFrom mode (Position.first.after (text.take p)) (text.drop p) where
  -- what has been copied so far stands before what is left of the rest
  finish mode p out hp := by
    rw [List.drop_eq_nil_of_le hp, stripCommentsFrom]
    exact congrArg Except.ok (List.append_nil out)
  literal mode p c out hmode hc _ := by
    refine ⟨?_, trivial⟩
    rw [drop_of_getElem? hc, stripCommentsFrom_cons _ (fun h => absurd h hmode), map_cons_strip,
      after_take_of_getElem? hc]
  plain p c out hc _ := by
    show Round.Meets _ _ _ _ (if ['(', '*'] <+: text.drop p then _ else if c = '"' then _ else _)
    -- the mark of a comment comes before all other tests
    by_cases hopens : ['(', '*'] <+: text.drop p
    · rw [if_pos hopens]
      obtain ⟨rest, hrest⟩ := hopens
      have hdrop : text.drop (p + 2) = rest := by
        rw [← List.drop_drop, ← hrest]
        rfl
      rw [hdrop]
      -- without an end the place of the mark is reported
      rcases hcut : cutComment? rest with _ | ⟨body, tail⟩
      · have hstrip : stripCommentsFrom .plain (Position.first.after (text.take p)) (text.drop p)
            = .error (Position.first.after (text.take p)) := by
          rw [← hrest]
          exact stripCommentsFrom_open hcut _
        exact congrArg (Functor.map (out ++ ·)) hstrip
      · -- otherwise the pass goes on behind the end of the comment
        obtain ⟨rfl, hbody⟩ := cutComment?_eq_some_iff.mp hcut
        exact ⟨strip_comment_of_drop hbody hrest.symm out, trivial⟩
    · -- here no comment begins, so the character is copied
      have hno : c = '(' → (text.drop (p + 1)).head? ≠ some '*' := by
        rintro rfl hhead
        obtain ⟨rest, hrest⟩ := List.head?_eq_some_iff.mp hhead
        exact hopens ⟨rest, by rw [drop_of_getElem? hc, hrest]; rfl⟩
      rw [if_neg hopens, drop_of_getElem? hc, stripCommentsFrom_cons _ (fun _ => hno),
        map_cons_strip, ← after_take_of_getElem? hc]
      by_cases hquote : c = '"'
      · rw [if_pos hquote, hquote]
        exact ⟨rfl, trivial⟩
      · rw [if_neg hquote, Mode.next_plain hquote]
        exact ⟨rfl, trivial⟩

/-! ### Splitting -/

/-- A character goes to the piece at hand. -/
theorem map_cons_split (hc : text[p]? = some c) {start : Nat} (h : start ≤ p)
    (done : List (List Char)) (rest : Except SplitFault (List Char × List (List Char))) :
    (fun split => done ++ ((text.take p).drop start ++ split.1) :: split.2) <$>
        (fun (piece, pieces) => (c :: piece, pieces)) <$> rest =
      (fun split => done ++ ((text.take (p + 1)).drop start ++ split.1) :: split.2) <$> rest := by
  rw [drop_take_of_getElem? hc h]
  cases rest with
  | error fault => rfl
  | ok rest => simp

theorem splitLoop_computes (sep : Char) (text : List Char) :
    (splitLoop sep).Computes skip text (fun p state => state.start ≤ p) fun mode p state =>
      (fun split => state.pieces ++ ((text.take p).drop state.start ++ split.1) :: split.2) <$>
        splitFrom sep mode state.opened (text.drop p) where
  -- at the end of the text the piece at hand is the last one, unless a bracket is open
  finish mode p state hp := by
    obtain ⟨start, opened, pieces⟩ := state
    rw [List.drop_eq_nil_of_le hp, List.take_of_length_le hp]
    cases mode with
    | plain =>
      cases opened with
      | nil => exact congrArg (fun piece => Except.ok (pieces ++ [piece])) (List.append_nil _)
      | cons b opened => rfl
    | literal => rfl
    | escape => rfl
  -- within a literal no character separates and no bracket is open or closed
  literal mode p c state hmode hc hstart := by
    have hstop : ¬(mode = .plain ∧ state.opened = [] ∧ separates sep c = true) :=
      fun h => hmode h.1
    have hstep : step mode state.opened c = some state.opened :=
      step_of_neutral (fun h => absurd h hmode) state.opened
    refine ⟨?_, Nat.le_succ_of_le hstart⟩
    rw [drop_of_getElem? hc, splitFrom_cons_of_step hstop hstep, map_cons_split hc hstart]
    rfl
  plain p c state hc hstart := by
    unfold splitLoop
    dsimp only
    rw [if_neg Bool.false_ne_true, drop_of_getElem? hc]
    -- a separator counts where no bracket is open
    by_cases hsep : separates sep c = true ∧ state.opened = []
    · -- the piece at hand ends, and the next one begins behind the separator
      obtain ⟨hsep, hopened⟩ := hsep
      have hquote : c ≠ '"' := by
        rintro rfl
        simp [separates] at hsep
      have htrack : Bracket.track state.opened c = some state.opened := (step_of_separates hsep).1
      rw [if_neg hquote, htrack, hopened, splitFrom_cons_sep hsep]
      dsimp only
      rw [if_pos ⟨hsep, rfl⟩]
      refine ⟨?_, Nat.le_refl (p + 1)⟩
      show _ = _ <$> splitFrom sep .plain [] (text.drop (p + 1))
      cases splitFrom sep .plain [] (text.drop (p + 1)) with
      | error fault => rfl
      | ok rest => simp
    · -- no piece ends here, so the character only changes the open brackets or the literal
      have hstop : ¬(Mode.plain = .plain ∧ state.opened = [] ∧ separates sep c = true) :=
        fun h => hsep ⟨h.2.2, h.2.1⟩
      -- a closer that fits no open bracket ends the pass with a fault
      rcases htrack : Bracket.track state.opened c with _ | opened
      · have hquote : c ≠ '"' := by
          rintro rfl
          cases htrack
        have hstep : step .plain state.opened c = none := htrack
        rw [if_neg hquote, splitFrom_cons_of_step_eq_none hstep]
        rfl
      · rw [splitFrom_cons_of_step hstop htrack, map_cons_split hc hstart]
        -- otherwise the open brackets are those that are tracked
        by_cases hquote : c = '"'
        · subst hquote
          cases htrack
          exact ⟨rfl, Nat.le_succ_of_le hstart⟩
        · rw [if_neg hquote, Mode.next_plain hquote]
          dsimp only
          rw [if_neg hsep]
          exact ⟨rfl, Nat.le_succ_of_le hstart⟩

/-! ### Cutting into statements -/

/-- The statements made of pieces, where the quote is given that opens the literal in which the last
one ends, if it does. -/
def Statements.ofPieces (pieces : List (List Char)) : Option Position → Statements
  | none => ⟨pieces.filter (!isBlankText ·), none⟩
  | some place =>
    ⟨pieces.dropLast.filter (!isBlankText ·),
      some (.openLiteral place (strip (pieces.getLast?.getD [])))⟩

/-- The statements before others, with the fault of those. -/
def Statements.behind (complete : List (List Char)) (statements : Statements) : Statements :=
  ⟨complete ++ statements.complete, statements.fault⟩

theorem statementsOfStripped_eq (text : List Char) :
    statementsOfStripped text = .ofPieces (cutPlain ';' text) (openQuote? text) := by
  rw [statementsOfStripped]
  cases openQuote? text <;> rfl

/-- A piece before others is complete. -/
theorem Statements.ofPieces_cons (piece first : List Char) (others : List (List Char))
    (quote : Option Position) : ofPieces (piece :: first :: others) quote =
      (ofPieces (first :: others) quote).behind ([piece].filter (!isBlankText ·)) := by
  cases quote with
  | none => simp [ofPieces, behind, ← List.filter_append]
  | some place => simp [ofPieces, behind, ← List.filter_append]

theorem Statements.behind_behind (complete complete' : List (List Char))
    (statements : Statements) :
    (statements.behind complete').behind complete = statements.behind (complete ++ complete') := by
  simp [behind]

/-- The statements that are found by reading on. -/
def statementsFrom (text : List Char) (mode : Mode) (p : Nat) (state : StatementState) :
    Statements :=
  let (piece, pieces) := cutPlainFrom ';' mode (text.drop p)
  (Statements.ofPieces (((text.take p).drop state.start ++ piece) :: pieces)
    (openQuoteFrom? (Position.first.after (text.take state.quote)) mode
      (Position.first.after (text.take p)) (text.drop p))).behind state.complete

/-- Reading on over a character at which nothing is cut and which opens no literal. -/
theorem statementsFrom_of_not_cut {mode : Mode} {state : StatementState} (hc : text[p]? = some c)
    (hstart : state.start ≤ p) (hcut : ¬(mode = .plain ∧ c = ';' ∧ c ≠ '"')) :
    statementsFrom text mode p state = statementsFrom text (mode.next c) (p + 1)
      { state with quote := if mode = .plain ∧ c = '"' then p else state.quote } := by
  have hplace : (if mode = .plain ∧ c = '"' then Position.first.after (text.take p)
      else Position.first.after (text.take state.quote)) =
        Position.first.after (text.take (if mode = .plain ∧ c = '"' then p else state.quote)) := by
    split <;> rfl
  rw [statementsFrom, statementsFrom, drop_of_getElem? hc, cutPlainFrom, if_neg hcut,
    drop_take_of_getElem? hc hstart, openQuoteFrom?, ← after_take_of_getElem? hc, hplace]
  simp

/-- Reading on over a semicolon completes a piece. -/
theorem statementsFrom_of_cut {state : StatementState} (hc : text[p]? = some c) (hcut : c = ';') :
    statementsFrom text .plain p state = statementsFrom text .plain (p + 1)
      { state with
        start := p + 1
        complete := state.complete ++
          [(text.take p).drop state.start].filter (!isBlankText ·) } := by
  have hpiece : (text.take (p + 1)).drop (p + 1) = [] :=
    List.drop_eq_nil_of_le (List.length_take_le _ _)
  subst hcut
  rw [statementsFrom, statementsFrom, drop_of_getElem? hc, cutPlainFrom, if_pos (by decide),
    openQuoteFrom?, if_neg (by decide), ← after_take_of_getElem? hc, Mode.next_plain (by decide),
    hpiece]
  dsimp only
  rw [Statements.ofPieces_cons, Statements.behind_behind, List.append_nil, List.nil_append]

theorem statementLoop_computes (text : List Char) :
    statementLoop.Computes skip text (fun p state => state.start ≤ p) (statementsFrom text) where
  -- at the end of the text the rest is the last statement, or the literal is open
  finish mode p state hp := by
    rw [statementsFrom, List.drop_eq_nil_of_le hp, List.take_of_length_le hp]
    cases mode <;>
      simp [statementLoop, cutPlainFrom, openQuoteFrom?, Statements.ofPieces, Statements.behind]
  -- within a literal nothing is cut
  literal mode p c state hmode hc hstart := by
    refine ⟨?_, Nat.le_succ_of_le hstart⟩
    rw [statementsFrom_of_not_cut hc hstart (fun h => hmode h.1), if_neg (fun h => hmode h.1)]
    rfl
  plain p c state hc hstart := by
    show Round.Meets _ _ _ _ (if c = '"' then _ else if c = ';' then _ else _)
    by_cases hquote : c = '"'
    · -- a quote opens a literal, and the place of the last one is kept
      rw [if_pos hquote, statementsFrom_of_not_cut hc hstart (fun h => h.2.2 hquote),
        if_pos ⟨rfl, hquote⟩, hquote]
      exact ⟨rfl, Nat.le_succ_of_le hstart⟩
    · rw [if_neg hquote]
      by_cases hcut : c = ';'
      · -- a semicolon ends the statement
        rw [if_pos hcut]
        refine ⟨?_, Nat.le_refl (p + 1)⟩
        rw [statementsFrom_of_cut hc hcut]
        rfl
      · -- all other characters belong to the statement
        rw [if_neg hcut, statementsFrom_of_not_cut hc hstart (fun h => hcut h.2.1),
          if_neg (fun h => hquote h.2), Mode.next_plain hquote]
        exact ⟨rfl, Nat.le_succ_of_le hstart⟩

/-! ### Answers -/

/-- **A pass finds out what it is for.** Its positions and marks come to the same as the recursion
that defines the answer on the text. -/
theorem Pass.run_answer (pass : Pass) (text : List Char) :
    (pass.run text).2 = pass.answer text := by
  cases pass with
  | comments =>
    refine ((commentLoop_computes text).run_answer readsLiterals_commentLoop trivial).trans ?_
    exact id_map (stripComments text)
  | statements =>
    show (Pass.statements.run text).2 = Source.statements text
    rw [Pass.run, Source.statements]
    -- without a text free of comments there is no pass over statements
    cases stripComments text with
    | error place => rfl
    | ok stripped =>
      refine ((statementLoop_computes stripped).run_answer readsLiterals_statementLoop
        (Nat.le_refl 0)).trans ?_
      show _ = statementsOfStripped stripped
      rw [statementsOfStripped_eq]
      simp [statementsFrom, statementLoop, Statements.behind, cutPlain, openQuote?]
  | blanks => exact (blankLoop_computes text).run_answer readsLiterals_blankLoop trivial
  | find target =>
    refine ((findLoop_computes target text).run_answer (readsLiterals_findLoop target)
      trivial).trans ?_
    simp [Pass.answer, findPlain?]
  | split sep =>
    refine ((splitLoop_computes sep text).run_answer (readsLiterals_splitLoop sep)
      (Nat.le_refl 0)).trans ?_
    rfl
  | bracket => exact (bracketLoop_computes text).run_answer readsLiterals_bracketLoop trivial

/-! ### Looking for the end of a literal -/

/-- The position of the quote that ends the literal, read on from a position in it. -/
def quoteFrom? (text : List Char) (p : Nat) : Option Nat :=
  (closingQuote? (text.drop p)).map (p + ·)

theorem quoteFrom?_of_le (hp : text.length ≤ p) : quoteFrom? text p = none := by
  rw [quoteFrom?, List.drop_eq_nil_of_le hp]
  rfl

theorem quoteFrom?_of_quote (hc : text[p]? = some '"') : quoteFrom? text p = some p := by
  rw [quoteFrom?, drop_of_getElem? hc]
  rfl

theorem quoteFrom?_of_char (hc : text[p]? = some c) (hquote : c ≠ '"') (hbackslash : c ≠ '\\') :
    quoteFrom? text p = quoteFrom? text (p + 1) := by
  rw [quoteFrom?, drop_of_getElem? hc, closingQuote?.eq_3 _ _ (fun _ _ hc _ => hbackslash hc),
    if_neg hquote, map_add_map]
  rfl

/-- A backslash takes the next character along, if there is one. -/
theorem quoteFrom?_of_backslash (hc : text[p]? = some '\\') :
    quoteFrom? text p = quoteFrom? text (p + 2) := by
  rw [quoteFrom?, drop_of_getElem? hc]
  rcases hd : text[p + 1]? with _ | d
  · have hp := List.getElem?_eq_none_iff.mp hd
    rw [List.drop_eq_nil_of_le hp, quoteFrom?_of_le (by omega)]
    rfl
  · rw [drop_of_getElem? hd, closingQuote?, map_add_map]
    rfl

/-- What the pass that looks for the end of a literal does with a character. -/
theorem quoteLoop_round (text : List Char) (v : Visit) (c : Char) (state : Unit) :
    (c = '\\' ∧ quoteLoop.round text v c state = .next 1 true ()) ∨
    (c = '"' ∧ quoteLoop.round text v c state = .done (some v.position)) ∨
    (c ≠ '"' ∧ c ≠ '\\' ∧ quoteLoop.round text v c state = .next 0 true ()) := by
  by_cases hbackslash : c = '\\'
  · subst hbackslash
    exact .inl ⟨rfl, rfl⟩
  by_cases hquote : c = '"'
  · subst hquote
    exact .inr (.inl ⟨rfl, rfl⟩)
  · exact .inr (.inr ⟨hquote, hbackslash, by simp [quoteLoop, hbackslash, hquote]⟩)

/-- From each visit on, it finds the quote that ends the literal. -/
theorem quoteLoop_answer_of_runs {v : Visit} {state : Unit} {visits : List Visit}
    {answer : Option Nat} (h : quoteLoop.Runs text v state visits answer) :
    answer = quoteFrom? text v.position := by
  -- induction on the visits: what the first quote is does not change between them
  induction h with
  | ended hv => exact (quoteFrom?_of_le hv).symm
  | @done v state c answer hc hround =>
    rcases quoteLoop_round text v c state with ⟨-, heq⟩ | ⟨rfl, heq⟩ | ⟨-, -, heq⟩
    · rw [heq] at hround
      cases hround
    · rw [heq] at hround
      cases hround
      exact (quoteFrom?_of_quote hc).symm
    · rw [heq] at hround
      cases hround
  -- a backslash takes two characters, every other one but the quote takes itself
  | @next v state _ c skipped inLiteral visits answer hc hround _ ih =>
    rcases quoteLoop_round text v c state with ⟨rfl, heq⟩ | ⟨-, heq⟩ | ⟨hquote, hbackslash, heq⟩
    · rw [heq] at hround
      cases hround
      exact ih.trans (quoteFrom?_of_backslash hc).symm
    · rw [heq] at hround
      cases hround
    · rw [heq] at hround
      cases hround
      exact ih.trans (quoteFrom?_of_char hc hquote hbackslash).symm

/-- **The pass that begins in a literal finds its end**, which is the place that searching the
literal gives. -/
theorem quoteLoop_answer (text : List Char) (start : Nat) :
    (quoteLoop.run text ⟨start + 1, true⟩ ()).2 = literalEnd? text start :=
  quoteLoop_answer_of_runs (quoteLoop.runs text ⟨start + 1, true⟩ ())

end Ebnf.Source
