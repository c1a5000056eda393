import Mathlib.Data.List.Basic

/-!
# `Lib.Splice` — lists of pieces that are glued where they meet

`splice` puts one list of pieces after another and glues the two pieces that meet; the empty list contributes
nothing. A list of pieces can be kept as one sequence with the offsets of its cuts: `cut` reads the pieces
back, `marks` are the cuts of a list of pieces, and both ways of joining two lists of pieces (`splice`, and
`++` with a cut where they meet) are described on the cuts.
-/

namespace Splice

open List

variable {α : Type*}

/-- One list of pieces after another, glued where they meet. -/
@[grind =]
def splice : List (List α) → List (List α) → List (List α)
  | [], ys => ys
  | [x], [] => [x]
  | [x], y :: ys => (x ++ y) :: ys
  | x :: x' :: xs, ys => x :: splice (x' :: xs) ys

@[simp]
theorem nil_splice (ys : List (List α)) : splice [] ys = ys := by
  simp [splice]

@[simp]
theorem splice_nil (xs : List (List α)) : splice xs [] = xs := by
  induction xs with
  | nil => rfl
  | cons x xs ih => cases xs with
    | nil => rfl
    | cons x' xs => simp only [splice, ih]

theorem cons_splice (x : List α) {xs : List (List α)} (ys : List (List α)) (h : xs ≠ []) :
    splice (x :: xs) ys = x :: splice xs ys := by
  cases xs with
  | nil => exact absurd rfl h
  | cons x' xs => simp only [splice]

@[simp]
theorem splice_eq_nil {xs ys : List (List α)} : splice xs ys = [] ↔ xs = [] ∧ ys = [] := by
  cases xs with
  | nil => simp
  | cons x xs => cases xs with
    | nil => cases ys <;> simp [splice]
    | cons x' xs => simp [splice]

theorem splice_assoc (xs ys zs : List (List α)) :
    splice (splice xs ys) zs = splice xs (splice ys zs) := by
  induction xs with
  | nil => simp
  | cons x xs ih =>
    by_cases hxs : xs = []
    · subst hxs
      cases ys with
      | nil => simp
      | cons y ys => cases ys with
        | nil => cases zs <;> simp [splice]
        | cons y' ys => simp [splice]
    · by_cases hys : ys = []
      · simp [hys]
      · rw [cons_splice x ys hxs, cons_splice x _ hxs, cons_splice x _ (by simp [hxs]), ih]

/-- Joined without its cuts, a spliced list is the two sequences one after the other. -/
@[simp]
theorem flatten_splice (xs ys : List (List α)) : (splice xs ys).flatten = xs.flatten ++ ys.flatten := by
  induction xs with
  | nil => simp
  | cons x xs ih =>
    by_cases hxs : xs = []
    · cases ys <;> simp [hxs, splice]
    · rw [cons_splice x ys hxs]
      simp [ih]

/-! ## Pieces as one sequence with cuts -/

/-- The pieces between the cuts, from `last` on. -/
@[grind =]
def cut (text : List α) : Nat → List Nat → List (List α)
  | last, [] => [text.drop last]
  | last, c :: cuts => (text.drop last).take (c - last) :: cut text c cuts

/-- The cuts of a list of pieces whose first piece starts at `base`. -/
@[grind =]
def marks : Nat → List (List α) → List Nat
  | _, [] => []
  | _, [_] => []
  | base, x :: y :: xs => (base + x.length) :: marks (base + x.length) (y :: xs)

variable (base : Nat)

@[simp]
theorem marks_nil : marks base ([] : List (List α)) = [] := by
  simp [marks]

@[simp]
theorem marks_singleton (x : List α) : marks base [x] = [] := by
  simp [marks]

theorem marks_cons (x : List α) {xs : List (List α)} (h : xs ≠ []) :
    marks base (x :: xs) = (base + x.length) :: marks (base + x.length) xs := by
  cases xs with
  | nil => exact absurd rfl h
  | cons y xs => simp only [marks]

/-- Shifting a list of pieces shifts its cuts. -/
theorem map_add_marks (k base : Nat) (xs : List (List α)) :
    (marks base xs).map (fun c => k + c) = marks (k + base) xs := by
  induction xs generalizing base with
  | nil => simp
  | cons x xs ih =>
    by_cases hxs : xs = []
    · simp [hxs]
    · rw [marks_cons base x hxs, marks_cons (k + base) x hxs]
      simp [ih, Nat.add_assoc]

/-- Gluing makes no cut. -/
theorem marks_splice (xs ys : List (List α)) :
    marks base (splice xs ys) = marks base xs ++ marks (base + xs.flatten.length) ys := by
  induction xs generalizing base with
  | nil => simp
  | cons x xs ih =>
    by_cases hxs : xs = []
    · subst hxs
      cases ys with
      | nil => simp
      | cons y ys =>
        by_cases hys : ys = []
        · simp [hys, splice]
        · simp only [splice, marks_singleton, nil_append, flatten_cons, flatten_nil,
            append_nil]
          rw [marks_cons _ _ hys, marks_cons _ _ hys, length_append, Nat.add_assoc]
    · rw [cons_splice x ys hxs, marks_cons base x (by simp [hxs]), marks_cons base x hxs, ih]
      simp [Nat.add_assoc]

/-- Joining with a cut makes one. -/
theorem marks_append {xs ys : List (List α)} (hx : xs ≠ []) (hy : ys ≠ []) :
    marks base (xs ++ ys)
      = marks base xs ++ (base + xs.flatten.length) :: marks (base + xs.flatten.length) ys := by
  induction xs generalizing base with
  | nil => exact absurd rfl hx
  | cons x xs ih =>
    by_cases hxs : xs = []
    · subst hxs
      simp only [cons_append, nil_append, marks_cons base x hy]
      simp
    · rw [cons_append, marks_cons base x (by simp [hxs]), marks_cons base x hxs, ih _ hxs]
      simp [Nat.add_assoc]

/-- The pieces are read back from the sequence and its cuts. -/
theorem cut_marks (front : List α) {xs : List (List α)} (h : xs ≠ []) :
    cut (front ++ xs.flatten) front.length (marks front.length xs) = xs := by
  induction xs generalizing front with
  | nil => exact absurd rfl h
  | cons x xs ih =>
    by_cases hxs : xs = []
    · simp [hxs, cut]
    · rw [marks_cons _ x hxs, cut]
      have hrest := ih (front ++ x) hxs
      simp only [append_assoc, length_append] at hrest
      simp only [flatten_cons, hrest]
      simp

end Splice
