import Mathlib.Data.List.Basic

/-!
# `Lib.Positions` — lists that are split at a position

Looking for an element, inserting and erasing one at an index, in terms of what stands before and behind it.
-/

namespace Positions

open List

variable {α : Type*} {l before behind : List α} {x : α} {p : α → Bool}

theorem insertIdx_eq_append {i : Nat} (hi : i ≤ l.length) : l.insertIdx i x = l.take i ++ x :: l.drop i := by
  induction l generalizing i with
  | nil =>
    obtain rfl : i = 0 := Nat.le_zero.mp hi
    rfl
  | cons y l ih =>
    cases i with
    | zero => rfl
    | succ i =>
      rw [insertIdx_succ_cons, ih (Nat.le_of_succ_le_succ hi)]
      rfl

theorem insertIdx_length (x : α) (before behind : List α) :
    (before ++ behind).insertIdx before.length x = before ++ x :: behind := by
  rw [insertIdx_eq_append (by rw [length_append]; omega), take_left, drop_left]

theorem eraseIdx_length (x : α) (before behind : List α) :
    (before ++ x :: behind).eraseIdx before.length = before ++ behind := by
  rw [eraseIdx_append_of_length_le (Nat.le_refl _), Nat.sub_self, eraseIdx_cons_zero]

theorem getElem?_length (x : α) (before behind : List α) : (before ++ x :: behind)[before.length]? = some x := by
  rw [getElem?_append_right (Nat.le_refl _), Nat.sub_self, getElem?_cons_zero]

/-- The first element with a property stands behind others without it. -/
theorem findIdx?_eq_some {i : Nat} : l.findIdx? p = some i ↔
    ∃ before x behind, l = before ++ x :: behind ∧ before.length = i ∧ p x = true ∧ ∀ y ∈ before, p y = false := by
  constructor
  · intro h
    obtain ⟨hi, hx, hbefore⟩ := findIdx?_eq_some_iff_getElem.mp h
    refine ⟨l.take i, l[i], l.drop (i + 1), ?_, ?_, hx, fun y hy => ?_⟩
    · rw [← drop_eq_getElem_cons hi, take_append_drop]
    · rw [length_take, Nat.min_eq_left (Nat.le_of_lt hi)]
    · obtain ⟨j, hj, rfl⟩ := mem_iff_getElem.mp hy
      rw [length_take] at hj
      rw [getElem_take]
      exact Bool.not_eq_true _ |>.mp (hbefore j (by omega))
  · rintro ⟨before, x, behind, rfl, rfl, hx, hbefore⟩
    rw [findIdx?_append, findIdx?_eq_none_iff.mpr hbefore, findIdx?_cons, hx]
    simp

theorem eq_false_of_mem_take {i : Nat} (h : l.findIdx? p = some i) : ∀ y ∈ l.take i, p y = false := by
  obtain ⟨before, x, behind, rfl, rfl, -, hbefore⟩ := findIdx?_eq_some.mp h
  rw [take_left]
  exact hbefore

end Positions
