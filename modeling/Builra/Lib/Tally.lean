import Mathlib.Algebra.BigOperators.Group.Finset.Piecewise
import Mathlib.Tactic.Abel

/-!
# `Lib.Tally` — the total of a table that changes one entry at a time

A table `f : ι → M` is summed over a finite set of indices; `M` may be `ℕ` (counting) or `Multiset α`
(collecting). The lemmas say how the total changes when one entry is overwritten, with the index set kept,
or extended by the index written to.
-/

namespace Tally

open Finset

variable {ι M : Type*} [DecidableEq ι] [AddCommMonoid M]

/-- **Overwriting an entry** trades its old content for the new one. -/
theorem sum_update_add (s : Finset ι) (f : ι → M) {i : ι} (hi : i ∈ s) (v : M) :
    ∑ x ∈ s, Function.update f i v x + f i = ∑ x ∈ s, f x + v := by
  rw [sum_update_of_mem hi, sdiff_singleton_eq_erase, ← sum_erase_add s f hi]
  abel

/-- **Writing to an entry that may be new**: an entry outside the index set counted for nothing. -/
theorem sum_insert_update_add (s : Finset ι) (f : ι → M) (i : ι) (v : M) (hi : i ∉ s → f i = 0) :
    ∑ x ∈ insert i s, Function.update f i v x + f i = ∑ x ∈ s, f x + v := by
  rw [sum_update_add (insert i s) f (mem_insert_self i s) v]
  by_cases h : i ∈ s
  · rw [insert_eq_of_mem h]
  · rw [sum_insert h, hi h, zero_add]

/-- Appending an entry to a table indexed by an initial segment. -/
theorem sum_range_succ_update (n : ℕ) (f : ℕ → M) (v : M) :
    ∑ x ∈ Finset.range (n + 1), Function.update f n v x = ∑ x ∈ Finset.range n, f x + v := by
  rw [sum_range_succ, Function.update_self]
  congr 1
  refine sum_congr rfl (fun x hx => Function.update_of_ne ?_ v f)
  exact (mem_range.mp hx).ne

end Tally
