import Ebnf.Proofs.Source.Comments
import Ebnf.Proofs.Source.Passes

/-!
# Passes agree on literals

Every pass keeps its own account of literals, and some of them jump over what a backslash takes
along where others copy it.  In a text that shows no comment all come to the same positions with the
same marks, and none of them ends within a literal before the text does.  So a place that one pass
finds outside literals is outside literals for the others too, and a text may be cut there.

## Main definitions

* `Source.Visit.Next`, `Source.Course` — from position to position, as every pass goes.
* `Source.reading` — the positions that are come to, with their marks, in terms of modes.
* `Source.Agree` — two passes agree.
* `Source.Closes`, `Source.EndsWithin` — where a literal ends for a pass.

## Main results

* `Source.Visit.Next.fits`, `Source.Course.fits` — a mark says whether the mode is that of a
  literal, after a step and all along.
* `Source.Course.prefix_reading` — there is one way to go.
* `Source.Pass.course` — every pass goes it.
* `Source.passes_agree` — **passes agree on what is within literals.**
-/

namespace Ebnf.Source

variable {σ ρ : Type} {text : List Char} {p q : Nat} {c : Char} {v w : Visit} {visits : List Visit}

/-! ### From position to position -/

/-- Where a pass goes from a position that holds a character: one position further with the mark
that the character calls for, or over an escaped character. -/
inductive Visit.Next (text : List Char) : Visit → Visit → Prop
  /-- A quote opens a literal. -/
  | opens {p : Nat} (hc : text[p]? = some '"') : Next text ⟨p, false⟩ ⟨p + 1, true⟩
  /-- Any other character does not. -/
  | plain {p : Nat} {c : Char} (hc : text[p]? = some c) (hquote : c ≠ '"') :
    Next text ⟨p, false⟩ ⟨p + 1, false⟩
  /-- A quote closes the literal. -/
  | closes {p : Nat} (hc : text[p]? = some '"') : Next text ⟨p, true⟩ ⟨p + 1, false⟩
  /-- A character stands for itself. -/
  | char {p : Nat} {c : Char} (hc : text[p]? = some c) (hquote : c ≠ '"')
    (hbackslash : c ≠ '\\') : Next text ⟨p, true⟩ ⟨p + 1, true⟩
  /-- A backslash takes the next character along, and at the end of the text there is none. -/
  | escaped {p q : Nat} (hc : text[p]? = some '\\')
    (hq : q = p + 2 ∨ p + 1 ≤ q ∧ text.length ≤ p + 1) : Next text ⟨p, true⟩ ⟨q, true⟩

/-- The visits of a pass, from one of them on: each is where the one before leads, and the last is
at the end of the text or where the pass is done. -/
inductive Course (text : List Char) : Visit → List Visit → Prop
  /-- It is at the end of the text. -/
  | ended {v : Visit} (h : text.length ≤ v.position) : Course text v [v]
  /-- It has its answer, outside literals and not at a quote. -/
  | stopped {p : Nat} {c : Char} (hc : text[p]? = some c) (hquote : c ≠ '"') :
    Course text ⟨p, false⟩ [⟨p, false⟩]
  /-- It goes on. -/
  | next {v w : Visit} {visits : List Visit} (h : v.Next text w) (hrest : Course text w visits) :
    Course text v (v :: visits)

theorem Course.mem (h : Course text v visits) : v ∈ visits := by
  cases h <;> exact List.mem_cons_self

theorem Visit.Next.lt_length (h : v.Next text w) : v.position < text.length := by
  cases h with
  | opens hc | plain hc | closes hc | char hc | escaped hc => exact lt_length_of_getElem? hc

/-! ### Modes -/

/-- The mark agrees with the mode, and the position is one to come to: no backslash takes it along,
and outside literals it is not behind the end of the text. -/
structure Visit.Fits (text : List Char) (v : Visit) : Prop where
  mark : v.inLiteral = decide (Mode.after .plain (text.take v.position) ≠ .plain)
  notTaken : v.position < text.length → Mode.after .plain (text.take v.position) ≠ .escape
  inside : v.inLiteral = false → v.position ≤ text.length

theorem after_take_succ (hc : text[p]? = some c) :
    Mode.after .plain (text.take (p + 1)) = (Mode.after .plain (text.take p)).next c := by
  rw [take_of_getElem? hc, Mode.after_append]
  rfl

/-- Where the mode is that of the mark, the two agree. -/
theorem Visit.fits_of_after_eq {inLiteral : Bool}
    (h : Mode.after .plain (text.take p) = .ofMark inLiteral) (hp : p ≤ text.length) :
    Visit.Fits text ⟨p, inLiteral⟩ := by
  cases inLiteral with
  | false => exact ⟨by rw [h]; rfl, fun _ => by rw [h]; nofun, fun _ => hp⟩
  | true => exact ⟨by rw [h]; rfl, fun _ => by rw [h]; nofun, nofun⟩

theorem Visit.fits_first (text : List Char) : Visit.first.Fits text :=
  fits_of_after_eq rfl (Nat.zero_le _)

/-- Before the end of the text the mode is that of the mark. -/
theorem Visit.Fits.after_eq (h : v.Fits text) (hv : v.position < text.length) :
    Mode.after .plain (text.take v.position) = .ofMark v.inLiteral := by
  rw [h.mark]
  rcases hmode : Mode.after .plain (text.take v.position) with _ | _ | _
  · rfl
  · rfl
  · exact absurd hmode (h.notTaken hv)

/-- If marks and modes agree they do so behind the next character, whatever kind of step leads
there. -/
theorem Visit.Next.fits (h : v.Next text w) (hv : v.Fits text) : w.Fits text := by
  -- the mark has to fit the mode in which the text up to the new place ends
  have hlength := h.lt_length
  have hafter := hv.after_eq hlength
  have hsucc : ∀ c, text[v.position]? = some c →
      Mode.after .plain (text.take (v.position + 1)) = (Mode.ofMark v.inLiteral).next c := by
    intro c hc
    rw [after_take_succ hc, hafter]
  cases h with
  | opens hc => exact fits_of_after_eq (hsucc _ hc) hlength
  | plain hc hquote =>
    exact fits_of_after_eq ((hsucc _ hc).trans (Mode.next_plain hquote)) hlength
  | closes hc => exact fits_of_after_eq (hsucc _ hc) hlength
  | char hc hquote hbackslash =>
    refine fits_of_after_eq ((hsucc _ hc).trans ?_) hlength
    rw [Mode.ofMark, Mode.next, if_neg hquote, if_neg hbackslash]
  | @escaped p q hc hq =>
    have hescape : Mode.after .plain (text.take (p + 1)) = .escape := hsucc _ hc
    rcases hd : text[p + 1]? with _ | d
    · -- the text ends with the backslash
      have hend := List.getElem?_eq_none_iff.mp hd
      have hle : text.length ≤ q := by omega
      rw [List.take_of_length_le hend] at hescape
      refine ⟨?_, fun hlt => absurd hlt (Nat.not_lt.mpr hle),
        fun hmark => absurd hmark Bool.false_ne_true.symm⟩
      rw [List.take_of_length_le hle, hescape]
      rfl
    · -- the escaped character takes the reading back into the literal
      have hp := lt_length_of_getElem? hd
      obtain rfl : q = p + 2 := by omega
      exact fits_of_after_eq (by rw [after_take_succ hd, hescape]; rfl) hp

/-- Marks and modes agree all along, since they do at the first visit and every step keeps it so. -/
theorem Course.fits (h : Course text v visits) (hv : v.Fits text) : ∀ w ∈ visits, w.Fits text := by
  induction h with
  | ended | stopped => simpa using hv
  | next h _ ih => exact List.forall_mem_cons.mpr ⟨hv, ih (h.fits hv)⟩

/-! ### One way to go -/

/-- The mark that agrees with the mode at a position. -/
def visitAt (text : List Char) (p : Nat) : Visit :=
  ⟨p, decide (Mode.after .plain (text.take p) ≠ .plain)⟩

/-- The positions from one on that are come to, with their marks: those that no backslash takes
along, and the end of the text. -/
def readingFrom (text : List Char) (p : Nat) : List Visit :=
  ((List.range' p (text.length + 1 - p)).filter fun p =>
    p = text.length ∨ Mode.after .plain (text.take p) ≠ .escape).map (visitAt text)

/-- The positions of a text that are come to, with their marks. -/
def reading (text : List Char) : List Visit := readingFrom text 0

/-- The visit, with the end of the text for its position if that is behind it. -/
def Visit.within (text : List Char) (v : Visit) : Visit :=
  ⟨min v.position text.length, v.inLiteral⟩

theorem range'_of_lt (h : p < text.length) : List.range' p (text.length + 1 - p) =
    p :: List.range' (p + 1) (text.length + 1 - (p + 1)) := by
  have hsub : text.length + 1 - p = text.length + 1 - (p + 1) + 1 := by omega
  rw [hsub, List.range'_succ]

theorem readingFrom_length : readingFrom text text.length = [visitAt text text.length] := by
  simp [readingFrom]

theorem readingFrom_of_reached (hp : p < text.length)
    (h : Mode.after .plain (text.take p) ≠ .escape) :
    readingFrom text p = visitAt text p :: readingFrom text (p + 1) := by
  rw [readingFrom, range'_of_lt hp, List.filter_cons_of_pos (by simp [h])]
  rfl

theorem readingFrom_of_taken (hp : p < text.length)
    (h : Mode.after .plain (text.take p) = .escape) :
    readingFrom text p = readingFrom text (p + 1) := by
  rw [readingFrom, range'_of_lt hp, List.filter_cons_of_neg (by simp [h]; omega)]
  rfl

theorem Visit.Fits.within_eq (h : v.Fits text) :
    v.within text = visitAt text (min v.position text.length) := by
  rw [Visit.within, visitAt, ← List.take_eq_take_min, h.mark]

/-- Reading on goes where a pass goes: the places between are within an escape and not come to. -/
theorem Visit.Next.readingFrom_eq (h : v.Next text w) (hv : v.Fits text) :
    readingFrom text v.position =
      visitAt text v.position :: readingFrom text (min w.position text.length) := by
  have hlength := h.lt_length
  have hafter := hv.after_eq hlength
  rw [readingFrom_of_reached hlength (hv.notTaken hlength)]
  cases h with
  | opens | plain | closes | char => rw [Nat.min_eq_left hlength]
  | @escaped p q hc hq =>
    have hescape : Mode.after .plain (text.take (p + 1)) = .escape := by
      rw [after_take_succ hc, hafter]
      rfl
    show _ :: readingFrom text (p + 1) = _ :: readingFrom text (min q text.length)
    by_cases hp : p + 1 < text.length
    · obtain rfl : q = p + 2 := by omega
      rw [readingFrom_of_taken hp hescape, Nat.min_eq_left hp]
    · have hend : min q text.length = p + 1 := by
        have : p < text.length := hlength
        omega
      rw [hend]

/-- A pass goes as reading does, up to where it ends, so that two passes differ only in how far they
go. -/
theorem Course.prefix_reading (h : Course text v visits) (hv : v.Fits text) :
    visits.map (·.within text) <+: readingFrom text (min v.position text.length) := by
  induction h with
  | @ended v hle =>
    have heq : [v.within text] = readingFrom text (min v.position text.length) := by
      rw [hv.within_eq, Nat.min_eq_right hle, readingFrom_length]
    exact heq ▸ List.prefix_rfl
  | @stopped p c hc =>
    have hp := lt_length_of_getElem? hc
    rw [List.map_singleton, hv.within_eq, Nat.min_eq_left (Nat.le_of_lt hp),
      readingFrom_of_reached hp (hv.notTaken hp)]
    exact (List.prefix_cons_inj _).mpr List.nil_prefix
  | @next v w visits h _ ih =>
    have hmin := Nat.min_eq_left (Nat.le_of_lt h.lt_length)
    rw [List.map_cons, hv.within_eq, hmin, h.readingFrom_eq hv]
    exact (List.prefix_cons_inj _).mpr (ih (h.fits hv))

/-! ### Passes -/

/-- What a pass does with a character outside literals. -/
inductive PlainRound : Char → Round σ ρ → Prop
  /-- A quote opens a literal. -/
  | opens {state : σ} : PlainRound '"' (.next 0 true state)
  /-- Any other character does not. -/
  | plain {c : Char} {state : σ} (hquote : c ≠ '"') : PlainRound c (.next 0 false state)
  /-- The pass has its answer, but not at a quote. -/
  | ends {c : Char} {answer : ρ} (hquote : c ≠ '"') : PlainRound c (.done answer)

/-- Outside literals a pass does in this text what all passes do. -/
def Loop.ReadsPlain (loop : Loop σ ρ) (text : List Char) : Prop :=
  ∀ p c state, text[p]? = some c → Mode.after .plain (text.take p) = .plain →
    PlainRound c (loop.round text ⟨p, false⟩ c state)

/-- A pass that does what all passes do goes as all passes go. It is enough that single rounds are
those of literals and of plain text. -/
theorem Loop.Runs.course {loop : Loop σ ρ} {push : σ → Char → σ} {state : σ} {answer : ρ}
    (hliteral : loop.ReadsLiterals push) (hplain : loop.ReadsPlain text)
    (h : loop.Runs text v state visits answer) (hv : v.Fits text) : Course text v visits := by
  induction h with
  | ended hle => exact .ended hle
  | @done v state c answer hc hround =>
    -- a pass that is done has met a quote, and so is not in a literal
    have hafter := hv.after_eq (lt_length_of_getElem? hc)
    obtain ⟨p, _ | _⟩ := v
    · have hplain := hplain p c state hc hafter
      rw [hround] at hplain
      cases hplain with
      | ends hquote => exact .stopped hc hquote
    · have hliteral := hliteral text p c state hc
      rw [hround] at hliteral
      cases hliteral
  | @next v state state' c skipped inLiteral visits answer hc hround _ ih =>
    -- a round follows the rules for its mark, inside literals and outside them
    have hnext : v.Next text ⟨v.position + 1 + skipped, inLiteral⟩ := by
      have hafter := hv.after_eq (lt_length_of_getElem? hc)
      obtain ⟨p, _ | _⟩ := v
      · have hplain := hplain p c state hc hafter
        rw [hround] at hplain
        cases hplain with
        | opens => exact .opens hc
        | plain hquote => exact .plain hc hquote
      · have hliteral := hliteral text p c state hc
        rw [hround] at hliteral
        cases hliteral with
        | closes => exact .closes hc
        | char hquote hbackslash => exact .char hc hquote hbackslash
        | escaped hd => exact .escaped hc (.inl rfl)
        | last hp => exact .escaped hc (.inr ⟨Nat.le_add_right _ _, hp⟩)
    exact .next hnext (ih (hnext.fits hv))

/-- A pass that looks for quotes first has only to be looked at elsewhere. -/
theorem PlainRound.ite {state : σ} {round : Round σ ρ} (h : c ≠ '"' → PlainRound c round) :
    PlainRound c (if c = '"' then .next 0 true state else round) := by
  by_cases hquote : c = '"'
  · subst hquote
    exact .opens
  · rw [if_neg hquote]
    exact h hquote

theorem readsPlain_commentLoop (h : ¬Shows .plain ['(', '*'] text) :
    commentLoop.ReadsPlain text := by
  intro p c out hc hmode
  have hno : ¬['(', '*'] <+: text.drop p := by
    rintro ⟨after, hafter⟩
    exact h ⟨text.take p, after, by rw [hafter, List.take_append_drop], hmode⟩
  show PlainRound c (if ['(', '*'] <+: text.drop p then _ else _)
  rw [if_neg hno]
  exact .ite .plain

theorem readsPlain_statementLoop (text : List Char) : statementLoop.ReadsPlain text := by
  intro p c state _ _
  refine .ite fun hquote => ?_
  split <;> exact .plain hquote

theorem readsPlain_blankLoop (text : List Char) : blankLoop.ReadsPlain text := by
  intro p c out _ _
  refine .ite fun hquote => ?_
  split <;> exact .plain hquote

theorem readsPlain_findLoop (target : Char) (text : List Char) :
    (findLoop target).ReadsPlain text := by
  intro p c state _ _
  refine .ite fun hquote => ?_
  split
  · exact .ends hquote
  · exact .plain hquote

theorem readsPlain_splitLoop (sep : Char) (text : List Char) :
    (splitLoop sep).ReadsPlain text := by
  intro p c state _ _
  refine .ite fun hquote => ?_
  split
  · exact .ends hquote
  · split <;> exact .plain hquote

theorem readsPlain_bracketLoop (text : List Char) : bracketLoop.ReadsPlain text := by
  intro p c depth _ _
  refine .ite fun hquote => ?_
  split
  · exact .plain hquote
  · split
    · split
      · exact .ends hquote
      · exact .plain hquote
    · exact .plain hquote

/-- Every pass goes so over a text that shows no comment, which is where the pass that drops
comments would jump. -/
theorem Pass.course (h : ¬Shows .plain ['(', '*'] text) (pass : Pass) :
    Course text .first (pass.visits text) := by
  have hfirst := Visit.fits_first text
  cases pass with
  | comments =>
    exact (commentLoop.runs text .first _).course readsLiterals_commentLoop
      (readsPlain_commentLoop h) hfirst
  | statements =>
    -- nothing is dropped before the text is cut
    have hstrips : Strips .plain text [] text (Mode.after .plain text) := .of_not_shows h nofun
    have hruns := (statementLoop.runs text .first statementLoop.start).course
      readsLiterals_statementLoop (readsPlain_statementLoop text) hfirst
    rw [Pass.visits, Pass.run, hstrips.stripComments_eq]
    exact hruns
  | blanks =>
    exact (blankLoop.runs text .first _).course readsLiterals_blankLoop
      (readsPlain_blankLoop text) hfirst
  | find target =>
    exact ((findLoop target).runs text .first _).course (readsLiterals_findLoop target)
      (readsPlain_findLoop target text) hfirst
  | split sep =>
    exact ((splitLoop sep).runs text .first _).course (readsLiterals_splitLoop sep)
      (readsPlain_splitLoop sep text) hfirst
  | bracket =>
    exact (bracketLoop.runs text .first _).course readsLiterals_bracketLoop
      (readsPlain_bracketLoop text) hfirst

/-! ### Ends of literals -/

/-- The literal that opens at `p` is closed at `q` for a pass. -/
structure Closes (text : List Char) (visits : List Visit) (p q : Nat) : Prop where
  lt : p < q
  quote : text[q]? = some '"'
  atQuote : ⟨q, true⟩ ∈ visits
  behind : ⟨q + 1, false⟩ ∈ visits
  marked : ∀ v ∈ visits, p < v.position → v.position ≤ q → v.inLiteral = true

/-- The text ends for a pass within the literal that opens at `p`. -/
structure EndsWithin (text : List Char) (visits : List Visit) (p : Nat) : Prop where
  ended : ∃ v ∈ visits, text.length ≤ v.position
  marked : ∀ v ∈ visits, p < v.position → v.inLiteral = true

theorem Closes.unique (h : Closes text visits p q) {q' : Nat} (h' : Closes text visits p q') :
    q' = q := by
  have hle : ∀ {q q'}, Closes text visits p q → Closes text visits p q' → q' ≤ q := by
    intro q q' h h'
    by_contra hlt
    have hmarked := h'.marked _ h.behind (Nat.lt_succ_of_lt h.lt) (by simp only; omega)
    exact Bool.false_ne_true hmarked
  exact Nat.le_antisymm (hle h h') (hle h' h)

theorem Closes.not_endsWithin (h : Closes text visits p q) : ¬EndsWithin text visits p :=
  fun h' => Bool.false_ne_true (h'.marked _ h.behind (Nat.lt_succ_of_lt h.lt))

/-- Before the text does, a pass does not end in a literal or where one opens. -/
theorem Course.exists_next (h : Course text v visits) (hw : w ∈ visits)
    (hlt : w.position < text.length) (hgo : w.inLiteral = true ∨ text[w.position]? = some '"') :
    ∃ w' ∈ visits, w.Next text w' := by
  induction h with
  | ended hle =>
    obtain rfl := List.mem_singleton.mp hw
    exact absurd hlt (Nat.not_lt.mpr hle)
  | stopped hc hquote =>
    obtain rfl := List.mem_singleton.mp hw
    rcases hgo with hmark | hopens
    · cases hmark
    · exact absurd (Option.some.inj (hc.symm.trans hopens)) hquote
  | @next v w' visits h hrest ih =>
    rcases List.mem_cons.mp hw with rfl | hw
    · refine ⟨w', List.mem_cons_of_mem _ ?_, h⟩
      cases hrest <;> exact List.mem_cons_self
    · obtain ⟨w', hw', hnext⟩ := ih hw
      exact ⟨w', List.mem_cons_of_mem _ hw', hnext⟩

/-- From a position in a literal a pass comes to the quote that ends it, or to the end of the
text. -/
theorem Course.exists_end (h : Course text v visits) (hp : ⟨p, true⟩ ∈ visits) :
    (∃ q, quoteFrom? text p = some q ∧ text[q]? = some '"' ∧ ⟨q, true⟩ ∈ visits ∧
      ⟨q + 1, false⟩ ∈ visits) ∨
    (quoteFrom? text p = none ∧ ∃ w ∈ visits, text.length ≤ w.position) := by
  -- induction on what is left of the text
  induction hn : text.length - p using Nat.strongRecOn generalizing p with
  | ind n ih =>
    by_cases hlt : p < text.length
    · obtain ⟨w, hw, hnext⟩ := h.exists_next hp hlt (.inl rfl)
      cases hnext with
      | closes hc => exact .inl ⟨p, quoteFrom?_of_quote hc, hc, hp, hw⟩
      | char hc hquote hbackslash =>
        rw [quoteFrom?_of_char hc hquote hbackslash]
        exact ih _ (by omega) hw rfl
      | @escaped _ q hc hq =>
        rw [quoteFrom?_of_backslash hc]
        rcases hq with rfl | ⟨hq, hend⟩
        · exact ih _ (by omega) hw rfl
        · exact .inr ⟨quoteFrom?_of_le (by omega), _, hw, by simp only; omega⟩
    · have hle := Nat.not_lt.mp hlt
      exact .inr ⟨quoteFrom?_of_le hle, _, hp, hle⟩

/-- The body of a literal does not lead out of it. -/
theorem LiteralBody.staysOpen {body : List Char} (h : LiteralBody body) :
    StaysOpen .literal body := by
  have hliteral : Mode.literal ≠ .plain := by decide
  have hescape : Mode.escape ≠ .plain := by decide
  induction h with
  | nil =>
    intro part hpart
    rw [List.prefix_nil.mp hpart]
    exact hliteral
  | char hquote hbackslash _ ih =>
    rw [staysOpen_cons hliteral, Mode.next, if_neg hquote, if_neg hbackslash]
    exact ih
  | escaped c _ ih => exact (staysOpen_cons hliteral).mpr ((staysOpen_cons hescape).mpr ih)

/-- Up to the quote that ends the literal, or to the end of the text, reading stays in it. -/
theorem after_take_ne_plain (hmode : Mode.after .plain (text.take p) = .literal) {r : Nat}
    (hpr : p ≤ r) (hr : ∀ q, quoteFrom? text p = some q → r ≤ q) :
    Mode.after .plain (text.take r) ≠ .plain := by
  have htake : text.take r = text.take p ++ (text.drop p).take (r - p) := by
    rw [← List.take_add, Nat.add_sub_cancel' hpr]
  rw [htake, Mode.after_append, hmode]
  rcases hclose : closingQuote? (text.drop p) with _ | k
  · exact closingQuote?_eq_none_iff.mp hclose _ (List.take_prefix _ _)
  · obtain ⟨body, after, hdrop, hbody, rfl⟩ := closingQuote?_eq_some_iff.mp hclose
    have hle : r - p ≤ body.length := by
      have := hr (p + body.length) (by rw [quoteFrom?, hclose]; rfl)
      omega
    rw [hdrop, List.take_append_of_le_length hle]
    exact hbody.staysOpen _ (List.take_prefix _ _)

/-- Where a literal ends for a pass that comes to the quote that opens it. -/
theorem Course.closes_or_endsWithin (h : Course text v visits) (hv : v.Fits text)
    (hp : ⟨p, false⟩ ∈ visits) (hc : text[p]? = some '"') :
    (∃ q, literalEnd? text p = some q ∧ Closes text visits p q) ∨
      (literalEnd? text p = none ∧ EndsWithin text visits p) := by
  have hlt := lt_length_of_getElem? hc
  have hmode : Mode.after .plain (text.take (p + 1)) = .literal := by
    rw [after_take_succ hc, (h.fits hv _ hp).after_eq hlt]
    rfl
  -- behind the quote every visit up to the end of the literal is marked
  have hmarked : ∀ w ∈ visits, p < w.position →
      (∀ q, literalEnd? text p = some q → w.position ≤ q) → w.inLiteral = true := by
    intro w hw hpw hq
    rw [(h.fits hv w hw).mark]
    exact decide_eq_true (after_take_ne_plain hmode hpw hq)
  have hopen : ⟨p + 1, true⟩ ∈ visits := by
    obtain ⟨w, hw, hnext⟩ := h.exists_next hp hlt (.inr hc)
    cases hnext with
    | opens => exact hw
    | plain hc' hquote => exact absurd (Option.some.inj (hc'.symm.trans hc)) hquote
  -- the first visit that is not marked stands at the closing quote, if there is one
  rcases h.exists_end hopen with ⟨q, hend, hquote, hatQuote, hbehind⟩ | ⟨hend, hended⟩
  · have hpq : p < q := by
      obtain ⟨k, -, rfl⟩ := Option.map_eq_some_iff.mp hend
      omega
    refine .inl ⟨q, hend, hpq, hquote, hatQuote, hbehind, fun w hw hpw hwq => ?_⟩
    refine hmarked w hw hpw fun q' hend' => ?_
    obtain rfl := Option.some.inj (hend'.symm.trans hend)
    exact hwq
  · refine .inr ⟨hend, hended, fun w hw hpw => hmarked w hw hpw fun q hq => ?_⟩
    have hnone : literalEnd? text p = none := hend
    rw [hnone] at hq
    cases hq

/-- **The end of a literal that is looked for is the one where any pass ends it.** -/
theorem Course.literalEnd?_spec (h : Course text v visits) (hv : v.Fits text)
    (hp : ⟨p, false⟩ ∈ visits) (hc : text[p]? = some '"') :
    (∀ q, literalEnd? text p = some q ↔ Closes text visits p q) ∧
      (literalEnd? text p = none ↔ EndsWithin text visits p) := by
  rcases h.closes_or_endsWithin hv hp hc with ⟨q, hend, hcloses⟩ | ⟨hend, hwithin⟩
  · rw [hend]
    refine ⟨fun q' => ⟨?_, fun h' => ?_⟩, nofun, fun h' => absurd h' hcloses.not_endsWithin⟩
    · rintro ⟨⟩
      exact hcloses
    · rw [hcloses.unique h']
  · rw [hend]
    exact ⟨fun q => ⟨nofun, fun h' => absurd hwithin h'.not_endsWithin⟩, fun _ => hwithin,
      fun _ => rfl⟩

/-! ### Agreement -/

/-- Two passes agree: as far as both go they come to the same positions, and wherever both come,
the end of the text included, they have the same mark. -/
structure Agree (text : List Char) (visits visits' : List Visit) : Prop where
  course : visits.map (·.within text) <+: visits'.map (·.within text) ∨
    visits'.map (·.within text) <+: visits.map (·.within text)
  mark : ∀ v ∈ visits, ∀ v' ∈ visits',
    min v.position text.length = min v'.position text.length → v.inLiteral = v'.inLiteral

/-- Passes that go as reading does agree, since their visits begin the same list. -/
theorem Agree.of_reading {visits' : List Visit}
    (h : visits.map (·.within text) <+: readingFrom text p)
    (h' : visits'.map (·.within text) <+: readingFrom text p) : Agree text visits visits' := by
  have hmark : ∀ {visits : List Visit}, visits.map (·.within text) <+: readingFrom text p →
      ∀ v ∈ visits, v.within text = visitAt text (min v.position text.length) := by
    intro visits h v hv
    obtain ⟨q, -, hq⟩ := List.mem_map.mp (h.subset (List.mem_map_of_mem hv))
    have hposition : q = min v.position text.length := congrArg Visit.position hq
    rw [← hposition, hq]
  have hcourse := List.prefix_or_prefix_of_prefix h h'
  refine ⟨hcourse, fun v hv v' hv' hposition => ?_⟩
  have hvisit : v.within text = v'.within text := by
    rw [hmark h v hv, hmark h' v' hv', hposition]
  exact congrArg (·.inLiteral) hvisit

/-- The visit of a text to which a visit of its rest from `p` on comes. -/
def Visit.shift (p : Nat) (v : Visit) : Visit := ⟨p + v.position, v.inLiteral⟩

/-- Outside literals reading may begin anew, and comes to the same places with the same marks. -/
theorem reading_drop (hp : p ≤ text.length) (hmode : Mode.after .plain (text.take p) = .plain) :
    (reading (text.drop p)).map (·.shift p) = readingFrom text p := by
  have hafter : ∀ k, Mode.after .plain ((text.drop p).take k) =
      Mode.after .plain (text.take (p + k)) := by
    intro k
    rw [List.take_add, Mode.after_append, hmode]
  have hlength : (text.drop p).length = text.length - p := List.length_drop
  have hrange : List.range' p (text.length + 1 - p) =
      (List.range' 0 (text.length - p + 1 - 0)).map (p + ·) := by
    rw [List.map_add_range']
    congr 1
    -- the range of places and the modes in it are moved by the same distance
    omega
  rw [reading, readingFrom, readingFrom, hrange, hlength, List.filter_map, List.map_map,
    List.map_map]
  have hvisit : (·.shift p) ∘ visitAt (text.drop p) = visitAt text ∘ (p + ·) := by
    funext k
    simp [visitAt, Visit.shift, hafter]
  rw [hvisit]
  congr 1
  refine List.filter_congr fun k _ => ?_
  have hend : k = text.length - p ↔ p + k = text.length := by omega
  simp [hafter, hend]

/-- What reading comes to from a position on. -/
theorem filter_reading (hp : p ≤ text.length) :
    (reading text).filter (p ≤ ·.position) = readingFrom text p := by
  have hrange : List.range' 0 (text.length + 1 - 0) =
      List.range' 0 p ++ List.range' p (text.length + 1 - p) := by
    have happend := @List.range'_append_1 0 p (text.length + 1 - p)
    rw [Nat.zero_add] at happend
    rw [happend]
    congr 1
    omega
  rw [reading, readingFrom, readingFrom, hrange, List.filter_append, List.map_append,
    List.filter_append, List.filter_eq_nil_iff.mpr, List.nil_append, List.filter_eq_self.mpr]
  · intro v hv
    obtain ⟨k, hk, rfl⟩ := List.mem_map.mp hv
    have := List.mem_range'_1.mp (List.mem_filter.mp hk).1
    exact decide_eq_true this.1
  · intro v hv hle
    obtain ⟨k, hk, rfl⟩ := List.mem_map.mp hv
    have := List.mem_range'_1.mp (List.mem_filter.mp hk).1
    have : p ≤ k := of_decide_eq_true hle
    omega

/-- What a text shows after a place outside literals it shows as a whole. -/
theorem Shows.of_drop {mark : List Char} (hmode : Mode.after .plain (text.take p) = .plain)
    (h : Shows .plain mark (text.drop p)) : Shows .plain mark text := by
  obtain ⟨before, after, hdrop, hplain⟩ := h
  refine ⟨text.take p ++ before, after, ?_, ?_⟩
  · rw [List.append_assoc, ← hdrop, List.take_append_drop]
  · rw [Mode.after_append, hmode, hplain]

namespace Pass

variable (h : ¬Shows .plain ['(', '*'] text)

include h

/-- Every pass goes as reading does, from the start of the text to where the pass ends. -/
theorem prefix_reading (pass : Pass) : (pass.visits text).map (·.within text) <+: reading text := by
  have hprefix := (pass.course h).prefix_reading (Visit.fits_first text)
  rwa [Visit.first, Nat.zero_min] at hprefix

/-- From a place outside literals on every pass over the rest of the text goes so too. -/
theorem prefix_reading_drop (hp : p ≤ text.length)
    (hmode : Mode.after .plain (text.take p) = .plain) (pass : Pass) :
    ((pass.visits (text.drop p)).map (·.shift p)).map (·.within text) <+: readingFrom text p := by
  have hprefix := (pass.prefix_reading (mt (Shows.of_drop hmode) h)).map (Visit.shift p)
  rw [reading_drop hp hmode, List.map_map] at hprefix
  have hwithin : (·.within text) ∘ Visit.shift p = Visit.shift p ∘ (·.within (text.drop p)) := by
    funext v
    have hmin : min (p + v.position) text.length =
        p + min v.position (text.length - p) := by
      omega
    simp [Visit.within, Visit.shift, hmin]
  rwa [List.map_map, hwithin]

/-- And every pass over the text, from there on. -/
theorem prefix_reading_filter (hp : p ≤ text.length) (pass : Pass) :
    ((pass.visits text).filter (p ≤ ·.position)).map (·.within text) <+: readingFrom text p := by
  have hwithin : ∀ v ∈ pass.visits text,
      decide (p ≤ v.position) = decide (p ≤ (v.within text).position) := by
    intro v _
    have hmin : p ≤ min v.position text.length ↔ p ≤ v.position := by omega
    exact decide_eq_decide.mpr hmin.symm
  have hprefix := (pass.prefix_reading h).filter (p ≤ ·.position)
  rw [filter_reading hp, List.filter_map] at hprefix
  rwa [List.filter_congr hwithin]

end Pass

/-- **Passes agree on what is within literals.**  Each pass finds out what it is for.  Over a text
that shows no comment it goes as reading does until it ends: any two passes come to the same
positions with the same marks, as far as both go, and agree at the end of the text if both get
there.  The end of a literal that is looked for is where every pass ends the literal that comes to
its opening quote, and there is none just if the text ends in that literal for every such pass.  And
from a position on that any pass finds outside literals, the rest of the text is gone over by itself
as it is within the text. -/
theorem passes_agree (h : ¬Shows .plain ['(', '*'] text) :
    (∀ pass : Pass, (pass.run text).2 = pass.answer text) ∧
    (∀ start, (quoteLoop.run text ⟨start + 1, true⟩ ()).2 = literalEnd? text start) ∧
    (∀ pass : Pass, (pass.visits text).map (·.within text) <+: reading text) ∧
    (∀ pass pass' : Pass, Agree text (pass.visits text) (pass'.visits text)) ∧
    ∀ (pass : Pass) (p : Nat), ⟨p, false⟩ ∈ pass.visits text →
      (text[p]? = some '"' →
        (∀ q, literalEnd? text p = some q ↔ Closes text (pass.visits text) p q) ∧
          (literalEnd? text p = none ↔ EndsWithin text (pass.visits text) p)) ∧
      ∀ pass' pass'' : Pass, Agree text ((pass'.visits (text.drop p)).map (·.shift p))
        ((pass''.visits text).filter (p ≤ ·.position)) := by
  refine ⟨fun pass => pass.run_answer text, quoteLoop_answer text,
    fun pass => pass.prefix_reading h, fun pass pass' => ?_,
    fun pass p hp => ⟨fun hquote => ?_, fun pass' pass'' => ?_⟩⟩
  · exact .of_reading (pass.prefix_reading h) (pass'.prefix_reading h)
  · exact (pass.course h).literalEnd?_spec (Visit.fits_first text) hp hquote
  · have hfits := (pass.course h).fits (Visit.fits_first text) _ hp
    have hle : p ≤ text.length := hfits.inside rfl
    have hmode : Mode.after .plain (text.take p) = .plain :=
      not_ne_iff.mp (of_decide_eq_false hfits.mark.symm)
    exact .of_reading (pass'.prefix_reading_drop h hle hmode) (pass''.prefix_reading_filter h hle)

/-- An escaped quote and a bracket in a literal, and a semicolon behind it. -/
theorem passes_agree_escape :
    literalEnd? ['"', '\\', '"', '(', '"', ';'] 0 = some 4 ∧
    ∀ pass : Pass, Closes ['"', '\\', '"', '(', '"', ';']
        (pass.visits ['"', '\\', '"', '(', '"', ';']) 0 4 ∧
      Agree ['"', '\\', '"', '(', '"', ';'] ((pass.visits [';']).map (·.shift 5))
        ((pass.visits ['"', '\\', '"', '(', '"', ';']).filter (5 ≤ ·.position)) := by
  have hno : ¬Shows .plain ['(', '*'] ['"', '\\', '"', '(', '"', ';'] := by decide
  have hend : literalEnd? ['"', '\\', '"', '(', '"', ';'] 0 = some 4 := by decide
  obtain ⟨-, -, -, -, hplaces⟩ := passes_agree hno
  refine ⟨hend, fun pass => ?_⟩
  have hcloses : Closes _ (pass.visits ['"', '\\', '"', '(', '"', ';']) 0 4 :=
    (((hplaces pass 0 (pass.course hno).mem).1 rfl).1 4).mp hend
  exact ⟨hcloses, (hplaces pass 5 hcloses.behind).2 pass pass⟩

end Ebnf.Source
