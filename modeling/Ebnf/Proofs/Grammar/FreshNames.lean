import Ebnf.Grammar.Builder
import Mathlib.Data.List.Dedup

/-!
# Fresh names

The names of the rules lifted out of one rule differ in their numbers alone, so among as many
numbers as there are names in use, and one more, some number gives a free name.  The search for a
fresh name tries exactly so many.

## Main results

* `liftedName_inj` — different rules and different numbers give different names.
* `firstFree_spec` — what the search passes over is not free.
* `le_of_passed` — how many numbers it can pass over.
* `isFree_freshName` — **a fresh name is neither reserved nor declared.**
-/

namespace Ebnf

namespace Builder

theorem liftedName_injective (parent : String) : Function.Injective (liftedName parent) := by
  intro k k' h
  have hrepr : toString k = toString k' := (String.append_right_inj _).mp h
  have hdigits : Nat.toDigits 10 k = Nat.toDigits 10 k' := by
    simpa only [Nat.toString_eq_repr, Nat.toList_repr] using congrArg String.toList hrepr
  have hvalue := congrArg (fun ds => Nat.ofDigitChars 10 ds 0) hdigits
  simpa using hvalue

/-- Digits after a character that is none cannot begin further left. -/
theorem eq_nil_of_append_digits {before before' digits : List Char} {c : Char}
    (hc : c.isDigit = false) (hdigits : ∀ d ∈ digits, d.isDigit = true)
    (h : before' ++ [c] = before ++ [c] ++ digits) : digits = [] := by
  rcases List.eq_nil_or_concat digits with rfl | ⟨init, last, rfl⟩
  · rfl
  · have hlast : c = last := by
      rw [List.concat_eq_append, ← List.append_assoc] at h
      exact (List.append_singleton_inj.mp h).2
    have hdigit := hdigits last (by simp)
    rw [← hlast, hc] at hdigit
    cases hdigit

/-- A lifted name tells the rule and the number: its number is all the digits at its end. -/
theorem liftedName_inj {parent parent' : String} {k k' : Nat}
    (h : liftedName parent k = liftedName parent' k') : parent = parent' ∧ k = k' := by
  have hdigits : ∀ n : Nat, ∀ d ∈ Nat.toDigits 10 n, d.isDigit = true :=
    fun n d hd => Nat.isDigit_of_mem_toDigits (by decide) (by decide) hd
  have hchars : (parent ++ "SubDe").toList ++ ['f'] ++ Nat.toDigits 10 k
      = (parent' ++ "SubDe").toList ++ ['f'] ++ Nat.toDigits 10 k' := by
    have := congrArg String.toList h
    simpa [liftedName, Nat.toString_eq_repr, Nat.toList_repr] using this
  have hparent : parent = parent' := by
    rcases List.append_eq_append_iff.mp hchars with
      ⟨more, hbefore, hafter⟩ | ⟨more, hbefore, hafter⟩
    · have hnil : more = [] := eq_nil_of_append_digits (by decide)
        (fun d hd => hdigits k d (hafter ▸ List.mem_append_left _ hd)) hbefore
      rw [hnil, List.append_nil] at hbefore
      exact String.toList_inj.mp (by simpa using hbefore.symm)
    · have hnil : more = [] := eq_nil_of_append_digits (by decide)
        (fun d hd => hdigits k' d (hafter ▸ List.mem_append_left _ hd)) hbefore
      rw [hnil, List.append_nil] at hbefore
      exact String.toList_inj.mp (by simpa using hbefore)
  subst hparent
  exact ⟨rfl, liftedName_injective parent h⟩

/-- A lifted name is longer than that of the rule. -/
theorem length_lt_liftedName (parent : String) (k : Nat) :
    parent.length < (liftedName parent k).length := by
  have hword : "SubDef".length = 6 := rfl
  rw [liftedName, String.length_append, String.length_append]
  omega

variable [Pattern.Engine]

theorem isFree_eq_true_iff {b : Builder} {name : String} :
    b.isFree name = true ↔ name ∉ b.order ∧ name ∉ b.declared := by
  simp [isFree, contains]

/-- The search stops between its first number and `tries` numbers later; the names it passes over
are not free, and the one it stops at is unless all have been tried. -/
theorem firstFree_spec (b : Builder) (parent : String) : ∀ (tries k : Nat),
    k ≤ b.firstFree parent tries k ∧ b.firstFree parent tries k ≤ k + tries ∧
      (∀ j, k ≤ j → j < b.firstFree parent tries k → b.isFree (liftedName parent j) = false) ∧
      (b.firstFree parent tries k < k + tries →
        b.isFree (liftedName parent (b.firstFree parent tries k)) = true) := by
  intro tries
  induction tries with
  | zero =>
    intro k
    rw [firstFree]
    exact ⟨Nat.le_refl k, Nat.le_refl k, fun j h₁ h₂ => by omega, fun h => by omega⟩
  | succ tries ih =>
    intro k
    rw [firstFree]
    by_cases hfree : b.isFree (liftedName parent k) = true
    · rw [if_pos hfree]
      exact ⟨Nat.le_refl k, by omega, fun j h₁ h₂ => by omega, fun _ => hfree⟩
    · rw [if_neg hfree]
      obtain ⟨hle, hbound, hpassed, hfound⟩ := ih (k + 1)
      refine ⟨by omega, by omega, fun j hj hlt => ?_, fun h => hfound (by omega)⟩
      -- the number tried first is not free, and the search passes over the others
      rcases Nat.eq_or_lt_of_le hj with rfl | hj
      · simpa using hfree
      · exact hpassed j hj hlt

/-- The number at which the search for a fresh name stops. -/
def freshNumber (b : Builder) (parent : String) : Nat :=
  b.firstFree parent (b.slots.length + b.declared.length) (b.counter parent + 1)

/-- **The numbers passed over are no more than the names in use.**  Each of them gives a name that
is reserved or declared, and no two give the same. -/
theorem le_of_passed {b : Builder} {parent : String} {k stop : Nat}
    (h : ∀ j, k < j → j < stop → b.isFree (liftedName parent j) = false) :
    stop ≤ k + (b.order.dedup.length + b.declared.dedup.length) + 1 := by
  let passed := (List.range' (k + 1) (stop - (k + 1))).map (liftedName parent)
  have hnodup : passed.Nodup :=
    (List.nodup_map_iff (liftedName_injective parent)).mpr List.nodup_range'
  have hused : passed ⊆ b.order.dedup ++ b.declared.dedup := by
    intro name hname
    obtain ⟨j, hj, rfl⟩ := List.mem_map.mp hname
    rw [List.mem_range'_1] at hj
    rw [List.mem_append, List.mem_dedup, List.mem_dedup]
    by_contra hmem
    rw [not_or, ← isFree_eq_true_iff, h j (by omega) (by omega)] at hmem
    exact Bool.false_ne_true hmem
  have hcount := hnodup.length_le_of_subset hused
  simp only [passed, List.length_map, List.length_range', List.length_append] at hcount
  omega

/-- **A fresh name is neither reserved nor declared.**  Were all names tried taken, there would be
more of them than names in use. -/
theorem isFree_freshName (b : Builder) (parent : String) :
    b.isFree (liftedName parent (b.freshNumber parent)) = true := by
  obtain ⟨hle, hbound, hpassed, hfound⟩ :=
    b.firstFree_spec parent (b.slots.length + b.declared.length) (b.counter parent + 1)
  change b.counter parent + 1 ≤ b.freshNumber parent at hle
  by_contra hfree
  -- if the number found were taken, the search must have come to its end
  have hlast : b.freshNumber parent
      = b.counter parent + 1 + (b.slots.length + b.declared.length) := by
    rcases Nat.lt_or_ge (b.freshNumber parent)
        (b.counter parent + 1 + (b.slots.length + b.declared.length)) with h | h
    · exact absurd (hfound h) hfree
    · exact Nat.le_antisymm hbound h
  -- the number at which the search gives up is passed over like those before it
  have hall : ∀ j, b.counter parent < j → j < b.freshNumber parent + 1 →
      b.isFree (liftedName parent j) = false := by
    intro j hj hlt
    rcases Nat.lt_succ_iff_lt_or_eq.mp hlt with h | rfl
    · exact hpassed j hj h
    · simpa using hfree
  have hcount := le_of_passed hall
  have horder : b.order.dedup.length ≤ b.slots.length := by
    simpa [order] using (List.dedup_sublist b.order).length_le
  have hdeclared := (List.dedup_sublist b.declared).length_le
  omega

theorem counter_lt_freshNumber (b : Builder) (parent : String) :
    b.counter parent < b.freshNumber parent :=
  (b.firstFree_spec parent _ _).1

/-- A fresh name for one rule leaves the counters of the others alone. -/
theorem counter_freshName (b : Builder) (parent name : String) :
    (b.freshName parent).2.counter name
      = if name = parent then b.freshNumber parent else b.counter name := by
  rw [counter, freshName, List.lookup_cons]
  by_cases h : name = parent
  · rw [if_pos h, beq_iff_eq.mpr h]
    rfl
  · rw [if_neg h, beq_false_of_ne h]
    rfl

/-- The numbers between the last one and the next one were passed over. -/
theorem isFree_eq_false_of_lt_freshNumber {b : Builder} {parent : String} {k : Nat}
    (hk : b.counter parent < k) (hlt : k < b.freshNumber parent) :
    b.isFree (liftedName parent k) = false :=
  (b.firstFree_spec parent _ _).2.2.1 k hk hlt

/-- Builders with the same counter and the same free names after it have the same fresh name. -/
theorem freshNumber_congr {b b' : Builder} {parent : String}
    (hcounter : b.counter parent = b'.counter parent)
    (hfree : ∀ k, b.counter parent < k →
      b.isFree (liftedName parent k) = b'.isFree (liftedName parent k)) :
    b.freshNumber parent = b'.freshNumber parent := by
  have hlt := b.counter_lt_freshNumber parent
  have hlt' : b.counter parent < b'.freshNumber parent :=
    hcounter ▸ b'.counter_lt_freshNumber parent
  -- each number is free for the other builder too, so neither search passes over it
  rcases Nat.lt_trichotomy (b.freshNumber parent) (b'.freshNumber parent) with h | heq | h
  · have hnot := isFree_eq_false_of_lt_freshNumber (hcounter ▸ hlt) h
    rw [← hfree _ hlt, b.isFree_freshName parent] at hnot
    cases hnot
  · exact heq
  · have hnot := isFree_eq_false_of_lt_freshNumber hlt' h
    rw [hfree _ hlt', b'.isFree_freshName parent] at hnot
    cases hnot

/-- A fresh name is not reserved. -/
theorem freshName_notMem_order (b : Builder) (parent : String) :
    (b.freshName parent).1 ∉ b.order :=
  (isFree_eq_true_iff.mp (b.isFree_freshName parent)).1

/-- A fresh name is not declared. -/
theorem freshName_notMem_declared (b : Builder) (parent : String) :
    (b.freshName parent).1 ∉ b.declared :=
  (isFree_eq_true_iff.mp (b.isFree_freshName parent)).2

end Builder
end Ebnf
