import Mathlib.Data.List.Nodup

/-!
# `Lib.Rows` — tables with a unique column

A table is a list of rows and a column is a function of the row. Where a column is unique, a search by it
finds the one row with that entry.
-/

namespace Rows

open List

variable {R C : Type*} {column : R → C} {rows : List R} {row : R} {entry : C}

/-- Searching a unique column. -/
theorem find?_eq_some_iff [DecidableEq C] (hunique : (rows.map column).Nodup) :
    rows.find? (fun row => column row = entry) = some row ↔ row ∈ rows ∧ column row = entry := by
  constructor
  · intro hfind
    have hentry := find?_some hfind
    exact ⟨mem_of_find?_eq_some hfind, of_decide_eq_true hentry⟩
  · rintro ⟨hrow, hentry⟩
    have hsome : (rows.find? (fun row => column row = entry)).isSome := by
      rw [find?_isSome]
      exact ⟨row, hrow, decide_eq_true hentry⟩
    obtain ⟨found, hfound⟩ := Option.isSome_iff_exists.mp hsome
    have hfoundEntry := find?_some hfound
    have hcolumn : column found = column row := (of_decide_eq_true hfoundEntry).trans hentry.symm
    rw [hfound, inj_on_of_nodup_map hunique (mem_of_find?_eq_some hfound) hrow hcolumn]

/-- A row with a new entry keeps the column unique. -/
theorem nodup_append_row (hunique : (rows.map column).Nodup) (hnew : ∀ old ∈ rows, column old ≠ column row) :
    ((rows ++ [row]).map column).Nodup := by
  rw [map_append, nodup_append]
  refine ⟨hunique, nodup_singleton _, ?_⟩
  intro a ha b hb
  obtain ⟨old, hold, rfl⟩ := mem_map.mp ha
  rw [map_singleton, mem_singleton] at hb
  rw [hb]
  exact hnew old hold

/-- No number of a list exceeds its maximum. -/
theorem le_foldl_max (l : List Nat) (a : Nat) : a ≤ l.foldl max a ∧ ∀ n ∈ l, n ≤ l.foldl max a := by
  induction l generalizing a with
  | nil => simp
  | cons b l ih =>
    obtain ⟨hinit, hrest⟩ := ih (max a b)
    refine ⟨Nat.le_trans (Nat.le_max_left a b) hinit, ?_⟩
    intro n hn
    rcases mem_cons.mp hn with rfl | hn
    · exact Nat.le_trans (Nat.le_max_right a n) hinit
    · exact hrest n hn

end Rows
