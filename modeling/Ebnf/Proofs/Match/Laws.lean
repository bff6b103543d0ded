import Ebnf.Proofs.Match.Nested

/-!
# Laws of readings

Readings are put together in a few ways: one after the other, one if there is no other, as often as
something is consumed.  A reading depends on nothing but the text, and one that fails leaves nothing
behind, so a common beginning of two alternatives can be read once.  A repetition ends where what is
repeated consumes nothing more, so repeating or skipping something that is repeated is of no
consequence.

## Main definitions

* `Nested.Reader`, `Nested.skip` — what reads a text, and the reader that consumes nothing.
* `Nested.andThen`, `Nested.orElse`, `Nested.many` — the ways of putting readers together.
* `Nested.Halts` — a repetition ends here.

## Main results

* `Nested.sequence_append`, `Nested.definitions_append` — how what is written is put together.
* `Nested.andThen_orElse` — a common beginning is read once.
* `Nested.many_many`, `Nested.many_orElse_skip`, `Nested.many_andThen_many` — what is repeated may
  be repeated or skipped.
-/

namespace Ebnf.Nested

/-- What gives a reading of a text, or stops. -/
abbrev Reader := List Char → Except Stop Reading

/-- Consumes nothing, which always succeeds. -/
def skip : Reader := fun text => .ok (some (text, []))

/-- Reads what the second reader does where the first one ends. -/
def andThen (p q : Reader) : Reader := fun text =>
  match p text with
  | .error stop => .error stop
  | .ok none => .ok none
  | .ok (some (rest, nodes)) =>
    match q rest with
    | .error stop => .error stop
    | .ok none => .ok none
    | .ok (some (rest', more)) => .ok (some (rest', nodes ++ more))

/-- Reads what the second reader does if the first one fails. -/
def orElse (p q : Reader) : Reader := fun text =>
  match p text with
  | .error stop => .error stop
  | .ok none => q text
  | .ok (some r) => .ok (some r)

/-- Reads as often as something is consumed; a round that consumes nothing is the last and does not
count. -/
def many (p : Reader) : Reader := fun text =>
  match star p text with
  | .error stop => .error stop
  | .ok r => .ok (some r)

variable {p q r : Reader}

/-! ### One after the other -/

theorem skip_andThen (p : Reader) : andThen skip p = p := by
  funext text
  rw [andThen, skip]
  dsimp only
  rcases p text with stop | _ | ⟨rest, nodes⟩ <;> rfl

theorem andThen_skip (p : Reader) : andThen p skip = p := by
  funext text
  rw [andThen]
  rcases p text with stop | _ | ⟨rest, nodes⟩
  · rfl
  · rfl
  · simp only [skip, List.append_nil]

theorem andThen_assoc (p q r : Reader) :
    andThen (andThen p q) r = andThen p (andThen q r) := by
  funext text
  rw [andThen, andThen, andThen]
  rcases p text with stop | _ | ⟨rest, nodes⟩
  · rfl
  · rfl
  · dsimp only
    rw [andThen]
    rcases q rest with stop | _ | ⟨rest', more⟩
    · rfl
    · rfl
    · dsimp only
      rcases r rest' with stop | _ | ⟨rest'', most⟩
      · rfl
      · rfl
      · simp only [List.append_assoc]

/-! ### One or the other -/

theorem orElse_assoc (p q r : Reader) : orElse (orElse p q) r = orElse p (orElse q r) := by
  funext text
  rw [orElse, orElse, orElse]
  rcases p text with stop | _ | _ <;> rfl

/-- A reader that never fails needs no other. -/
theorem orElse_of_ne_none (hp : ∀ text, p text ≠ .ok none) : orElse p q = p := by
  funext text
  rw [orElse]
  rcases h : p text with stop | _ | _
  · rfl
  · exact absurd h (hp text)
  · rfl

/-- A common beginning is read once: where the rest of one alternative fails, the other one begins
again and gets as far. -/
theorem andThen_orElse (p q r : Reader) :
    andThen p (orElse q r) = orElse (andThen p q) (andThen p r) := by
  funext text
  rw [andThen, orElse, andThen, andThen]
  rcases p text with stop | _ | ⟨rest, nodes⟩
  · rfl
  · rfl
  · dsimp only
    rw [orElse]
    rcases q rest with stop | _ | _ <;> rfl

theorem orElse_skip_ne_none (p : Reader) (text : List Char) : orElse p skip text ≠ .ok none := by
  rw [orElse, skip]
  rcases p text with stop | _ | _ <;> nofun

/-! ### Again and again -/

/-- What is repeated fails here, or it consumes nothing: a repetition ends. -/
def Halts (p : Reader) (text : List Char) : Prop :=
  p text = .ok none ∨ ∃ rest nodes, p text = .ok (some (rest, nodes)) ∧ ¬ rest.length < text.length

/-- Where it halts, a repetition leaves all of the text. -/
theorem Halts.star_eq {text : List Char} (h : Halts p text) : star p text = .ok (text, []) := by
  rw [star]
  rcases h with hnone | ⟨rest, nodes, hsome, hnot⟩
  · rw [hnone]
  · rw [hsome]
    exact if_neg hnot

/-- A repetition ends where what is repeated halts, and it has nodes only if it has consumed
something. -/
theorem halts_of_star {text rest : List Char} {nodes : List Tree}
    (h : star p text = .ok (rest, nodes)) :
    Halts p rest ∧ ((rest = text ∧ nodes = []) ∨ rest.length < text.length) := by
  -- induction on the length of the text, which every round but the last reduces
  induction hn : text.length using Nat.strongRecOn generalizing text nodes with
  | ind n ih =>
    rw [star] at h
    -- the three ways in which the first round can end
    rcases hp : p text with stop | _ | ⟨rest', nodes'⟩
    · rw [hp] at h
      cases h
    · rw [hp] at h
      cases h
      exact ⟨Or.inl hp, Or.inl ⟨rfl, rfl⟩⟩
    · rw [hp] at h
      dsimp only at h
      -- what the last of the others leaves is left
      by_cases hlt : rest'.length < text.length
      · rw [if_pos hlt] at h
        rcases hmore : star p rest' with stop | ⟨rest'', more⟩
        · rw [hmore] at h
          cases h
        · rw [hmore] at h
          cases h
          obtain ⟨hhalts, hrest⟩ := ih _ (hn ▸ hlt) hmore rfl
          refine ⟨hhalts, Or.inr ?_⟩
          rcases hrest with ⟨rfl, -⟩ | hshorter
          · exact hn ▸ hlt
          · omega
      · -- a round that consumes nothing is the last one
        rw [if_neg hlt] at h
        cases h
        exact ⟨Or.inr ⟨_, _, hp, hlt⟩, Or.inl ⟨rfl, rfl⟩⟩

theorem many_ne_none (p : Reader) (text : List Char) : many p text ≠ .ok none := by
  rw [many]
  rcases star p text with stop | _ <;> nofun

/-- What is repeated may be repeated in each round: the first round gets to the end. -/
theorem many_many (p : Reader) : many (many p) = many p := by
  funext text
  rw [many, star, many]
  rcases hstar : star p text with stop | ⟨rest, nodes⟩
  · rfl
  · obtain ⟨hhalts, ⟨rfl, rfl⟩ | hlt⟩ := halts_of_star hstar
    · dsimp only
      rw [if_neg (Nat.lt_irrefl _)]
    · -- the second round finds nothing to consume
      have hsecond : Halts (many p) rest := by
        refine Or.inr ⟨rest, [], ?_, Nat.lt_irrefl _⟩
        rw [many, hhalts.star_eq]
      dsimp only
      rw [if_pos hlt, hsecond.star_eq]
      simp only [List.append_nil]

/-- What is repeated may be skipped in each round: a round that is skipped consumes nothing. -/
theorem many_orElse_skip (p : Reader) : many (orElse p skip) = many p := by
  have hstar : ∀ text, star (orElse p skip) text = star p text := by
    intro text
    induction hn : text.length using Nat.strongRecOn generalizing text with
    | ind n ih =>
      rw [star, star, orElse]
      rcases p text with stop | _ | ⟨rest, nodes⟩
      · rfl
      · exact if_neg (Nat.lt_irrefl _)
      · dsimp only
        by_cases hlt : rest.length < text.length
        · rw [if_pos hlt, if_pos hlt, ih _ (hn ▸ hlt) rest rfl]
        · rw [if_neg hlt, if_neg hlt]
  funext text
  rw [many, many, hstar]

/-- A repetition leaves nothing to the same repetition behind it, since it ends only where a round
fails or consumes nothing. -/
theorem many_andThen_many (p : Reader) : andThen (many p) (many p) = many p := by
  funext text
  rw [andThen, many]
  rcases hstar : star p text with stop | ⟨rest, nodes⟩
  · rfl
  · dsimp only
    rw [many, (halts_of_star hstar).1.star_eq]
    simp only [List.append_nil]

/-! ### What is written -/

variable [Pattern.Engine] {refer : String → Reader}

theorem sequence_nil : sequence refer [] = skip := by
  funext text
  rw [sequence, skip]

theorem sequence_cons (first : Primary) (others : List Primary) :
    sequence refer (first :: others)
      = andThen (primary refer first) (sequence refer others) := by
  funext text
  rw [sequence]
  rfl

theorem definitions_cons (alt : List Primary) (others : Definitions) :
    definitions refer (alt :: others)
      = orElse (sequence refer alt) (definitions refer others) := by
  funext text
  rw [definitions]
  rfl

theorem primary_group (d : Definitions) :
    primary refer (.bracketed .group d) = definitions refer d := by
  funext text
  rw [primary]

theorem primary_optional (d : Definitions) :
    primary refer (.bracketed .optional d) = orElse (definitions refer d) skip := by
  funext text
  rw [primary]
  rfl

theorem primary_repetition (d : Definitions) :
    primary refer (.bracketed .repetition d) = many (definitions refer d) := by
  funext text
  rw [primary]
  rfl

/-- A terminal of no characters consumes nothing. -/
theorem primary_empty : primary refer (.terminal []) = skip := by
  funext text
  rw [primary]
  rfl

theorem sequence_append (ps qs : List Primary) :
    sequence refer (ps ++ qs) = andThen (sequence refer ps) (sequence refer qs) := by
  induction ps with
  | nil => rw [List.nil_append, sequence_nil, skip_andThen]
  | cons first others ih =>
    rw [List.cons_append, sequence_cons, sequence_cons, ih, andThen_assoc]

theorem sequence_singleton (p : Primary) : sequence refer [p] = primary refer p := by
  rw [sequence_cons, sequence_nil, andThen_skip]

theorem definitions_append (d d' : Definitions) :
    definitions refer (d ++ d') = orElse (definitions refer d) (definitions refer d') := by
  induction d with
  | nil =>
    funext text
    rw [List.nil_append, orElse, definitions]
  | cons alt others ih =>
    rw [List.cons_append, definitions_cons, definitions_cons, ih, orElse_assoc]

theorem definitions_singleton (alt : List Primary) :
    definitions refer [alt] = sequence refer alt := by
  funext text
  rw [definitions]
  rcases sequence refer alt text with stop | _ | _
  · rfl
  · rw [definitions]
  · rfl

end Ebnf.Nested
