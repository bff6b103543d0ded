import Ebnf.Proofs.Grammar.FreshNames
import Mathlib.Order.Bounds.Basic

/-!
# The search for a free name

A fresh name is found by trying one number after the other.  Nothing in the search itself says when
to stop but that a name is free, and yet it ends: the names in use are finitely many, and each of
them can be in the way of one number only.  A builder gives up after as many tries as there are such
names, which is never before the search is at its end.

## Main definitions

* `Builder.Searches` — the search, which has no bound.

## Main results

* `Builder.searches_iff` — where the search stops.
* `Builder.freshName_isLeast` — **the search ends, with the least number that is left.**
-/

namespace Ebnf

section AnyEngine

variable [Pattern.Engine]

namespace Builder

/-- The search for a fresh name goes on from the number `k`, tries the next one in each round, and
in the last of its rounds comes to the free name with the number `stop`. -/
inductive Searches (b : Builder) (parent : String) : (k rounds stop : Nat) → Prop
  /-- The next number gives a free name. -/
  | found {k : Nat} (h : b.isFree (liftedName parent (k + 1)) = true) :
    Searches b parent k 1 (k + 1)
  /-- The next number gives a name in use and is passed over. -/
  | passed {k rounds stop : Nat} (h : b.isFree (liftedName parent (k + 1)) = false)
    (hrest : Searches b parent (k + 1) rounds stop) : Searches b parent k (rounds + 1) stop

variable {b : Builder} {parent : String} {k rounds stop : Nat}

/-- The search passes over all numbers but the last, in a round each. -/
theorem searches_iff : b.Searches parent k rounds stop ↔
    0 < rounds ∧ stop = k + rounds ∧
      (∀ j, k < j → j < stop → b.isFree (liftedName parent j) = false) ∧
      b.isFree (liftedName parent stop) = true := by
  constructor
  · intro h
    induction h with
    | found hfree => exact ⟨Nat.one_pos, rfl, fun j hj hlt => by omega, hfree⟩
    | passed hnot _ ih =>
      obtain ⟨-, rfl, hpassed, hfree⟩ := ih
      refine ⟨Nat.succ_pos _, by omega, fun j hj hlt => ?_, hfree⟩
      -- the number tried first was taken, and the others were passed over later
      rcases Nat.eq_or_lt_of_le hj with rfl | hj
      · exact hnot
      · exact hpassed j hj hlt
  · rintro ⟨hpos, rfl, hpassed, hfree⟩
    induction rounds generalizing k with
    | zero => cases hpos
    | succ rounds ih =>
      -- one round is left only when the number is found
      rcases Nat.eq_zero_or_pos rounds with rfl | hrounds
      · exact .found hfree
      · rw [show k + (rounds + 1) = k + 1 + rounds by omega] at hpassed hfree ⊢
        exact .passed (hpassed (k + 1) (Nat.lt_succ_self k) (by omega))
          (ih hrounds (fun j hj => hpassed j (by omega)) hfree)

/-- There is one end to the search. -/
theorem Searches.unique (h : b.Searches parent k rounds stop) {rounds' stop' : Nat}
    (h' : b.Searches parent k rounds' stop') : rounds' = rounds ∧ stop' = stop := by
  obtain ⟨hpos, rfl, hpassed, hfree⟩ := searches_iff.mp h
  obtain ⟨hpos', rfl, hpassed', hfree'⟩ := searches_iff.mp h'
  -- neither search passes over the number at which the other one stops
  have hle : rounds ≤ rounds' := by
    by_contra hlt
    rw [hpassed (k + rounds') (by omega) (by omega)] at hfree'
    cases hfree'
  have hge : rounds' ≤ rounds := by
    by_contra hlt
    rw [hpassed' (k + rounds) (by omega) (by omega)] at hfree
    cases hfree
  omega

/-- A builder stops where the search does. -/
theorem searches_freshNumber (b : Builder) (parent : String) :
    b.Searches parent (b.counter parent) (b.freshNumber parent - b.counter parent)
      (b.freshNumber parent) := by
  have hlt := b.counter_lt_freshNumber parent
  exact searches_iff.mpr ⟨by omega, by omega, fun j => isFree_eq_false_of_lt_freshNumber,
    b.isFree_freshName parent⟩

/-- It takes one round more, at most, than there are names in use. -/
theorem Searches.rounds_le (h : b.Searches parent k rounds stop) :
    rounds ≤ b.order.dedup.length + b.declared.dedup.length + 1 := by
  obtain ⟨-, rfl, hpassed, -⟩ := searches_iff.mp h
  have hle := le_of_passed hpassed
  omega

/-- It stops at the least number that is left. -/
theorem Searches.isLeast (h : b.Searches parent k rounds stop) :
    IsLeast {j | k < j ∧ liftedName parent j ∉ b.order ∧ liftedName parent j ∉ b.declared}
      stop := by
  obtain ⟨hpos, rfl, hpassed, hfree⟩ := searches_iff.mp h
  refine ⟨⟨by omega, isFree_eq_true_iff.mp hfree⟩, fun j ⟨hj, hleft⟩ => ?_⟩
  by_contra hlt
  have hnot := hpassed j hj (by omega)
  rw [isFree_eq_true_iff.mpr hleft] at hnot
  cases hnot

/-- **The search ends, with the least number that is left.**  Whatever the builder, the search for a
fresh name ends in one way, after at most as many rounds as names are reserved and declared and one
more.  The number at which it stops is the least one beyond the last number of the rule that gives a
name neither reserved nor declared.  The builder takes this name and this number, and its names and
rules and the numbers of all other rules stay what they are. -/
theorem freshName_isLeast (b : Builder) (parent : String) :
    ∃ rounds k, b.Searches parent (b.counter parent) rounds k ∧
      (∀ rounds' k', b.Searches parent (b.counter parent) rounds' k' →
        rounds' = rounds ∧ k' = k) ∧
      rounds ≤ b.order.dedup.length + b.declared.dedup.length + 1 ∧
      IsLeast {j | b.counter parent < j ∧
        liftedName parent j ∉ b.order ∧ liftedName parent j ∉ b.declared} k ∧
      (b.freshName parent).1 = liftedName parent k ∧
      (b.freshName parent).2.counter parent = k ∧
      (∀ other, other ≠ parent → (b.freshName parent).2.counter other = b.counter other) ∧
      (b.freshName parent).2.slots = b.slots ∧
      (b.freshName parent).2.declared = b.declared := by
  have hsearch := b.searches_freshNumber parent
  refine ⟨_, _, hsearch, fun _ _ => hsearch.unique, hsearch.rounds_le, hsearch.isLeast, rfl, ?_,
    fun other hother => ?_, rfl, rfl⟩
  · rw [counter_freshName, if_pos rfl]
  · rw [counter_freshName, if_neg hother]

end Builder

end AnyEngine

namespace Builder

attribute [local instance] Pattern.Engine.verbatim

/-- A builder in which the first name for a rule is declared and the second reserved. -/
def takenBuilder : Builder := ⟨["XSubDef1"], [("XSubDef2", none)], [("Y", 4)]⟩

theorem freshName_isLeast_taken :
    takenBuilder.Searches "X" 0 3 3 ∧ (takenBuilder.freshName "X").1 = "XSubDef3" ∧
      "Y" ≠ "X" ∧ (takenBuilder.freshName "X").2.counter "Y" = takenBuilder.counter "Y" := by
  obtain ⟨rounds, k, hsearch, -, -, -, hname, -, hothers, -⟩ := freshName_isLeast takenBuilder "X"
  have hthird : (takenBuilder.freshName "X").1 = liftedName "X" 3 := by decide +kernel
  obtain rfl : k = 3 := liftedName_injective "X" (hname.symm.trans hthird)
  have hzero : takenBuilder.counter "X" = 0 := by decide
  obtain ⟨-, hrounds, -⟩ := searches_iff.mp hsearch
  rw [hzero] at hsearch hrounds
  obtain rfl : rounds = 3 := by omega
  have hne : "Y" ≠ "X" := by decide
  exact ⟨hsearch, hname, hne, hothers "Y" hne⟩

end Builder
end Ebnf
