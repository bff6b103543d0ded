/-!
# Character classes as ranges of code points

The classes of characters that the library consults are tables of ranges. A range is a pair of
its least and its greatest code point, and a table lists its ranges in ascending order.

## Main definitions

* `inRanges` — membership of a code point in a table.
-/

namespace Ebnf.Text

/-- Whether a code point lies in one of the ranges. The table is ascending, so the search stops
at the first range that begins above the code point. -/
def inRanges : List (Nat × Nat) → Nat → Bool
  | [], _ => false
  | (low, high) :: rest, code =>
    if code < low then false else if code ≤ high then true else inRanges rest code

@[simp] theorem inRanges_nil (code : Nat) : inRanges [] code = false := rfl

theorem inRanges_cons (low high : Nat) (rest : List (Nat × Nat)) (code : Nat) :
    inRanges ((low, high) :: rest) code =
      if code < low then false else if code ≤ high then true else inRanges rest code := rfl

/-- A member lies within one of the ranges. -/
theorem exists_range_of_inRanges {ranges : List (Nat × Nat)} {code : Nat}
    (h : inRanges ranges code = true) : ∃ r ∈ ranges, r.1 ≤ code ∧ code ≤ r.2 := by
  induction ranges with
  | nil => simp at h
  | cons r rest ih =>
    obtain ⟨low, high⟩ := r
    rw [inRanges_cons] at h
    split at h
    · simp at h
    · rename_i hlow
      split at h
      · rename_i hhigh
        exact ⟨(low, high), List.mem_cons_self, Nat.le_of_not_lt hlow, hhigh⟩
      · obtain ⟨r, hr, hcode⟩ := ih h
        exact ⟨r, List.mem_cons_of_mem _ hr, hcode⟩

end Ebnf.Text
