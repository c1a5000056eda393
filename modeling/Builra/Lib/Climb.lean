import Mathlib.Data.List.Basic
import Mathlib.Data.List.Induction

/-!
# `Lib.Climb` — moves in a tree of names

A position in a tree is the list of the names that lead to it from the root. A move goes into a child or up to the
parent, and the parent of the root is the root. Wherever a sequence of moves starts, it goes up a number of levels and
then down some names (`Reach`), so that its effect can be computed before the position is known.
-/

namespace Climb

open List

variable {α : Type*}

inductive Move (α : Type*) where
  | into (name : α)
  | up
deriving DecidableEq

/-- The position after a move. -/
def walk (position : List α) : Move α → List α
  | .into name => position ++ [name]
  | .up => position.dropLast

/-- The effect of a sequence of moves: so many levels up, and down these names. -/
@[ext]
structure Reach (α : Type*) where
  ups : Nat
  names : List α
deriving DecidableEq

namespace Reach

def none : Reach α := ⟨0, []⟩

def move (r : Reach α) : Move α → Reach α
  | .into name => ⟨r.ups, r.names ++ [name]⟩
  | .up =>
    match r.names with
    | [] => ⟨r.ups + 1, []⟩
    | _ :: _ => ⟨r.ups, r.names.dropLast⟩

/-- The moves, made from a position. -/
def start (r : Reach α) (position : List α) : List α := position.take (position.length - r.ups) ++ r.names

end Reach

def reach (moves : List (Move α)) : Reach α := moves.foldl Reach.move .none

section

variable {r : Reach α} {position : List α} {moves : List (Move α)}

@[simp]
theorem Reach.start_none : (Reach.none : Reach α).start position = position := by
  simp [Reach.start, Reach.none]

@[simp]
theorem reach_nil : reach ([] : List (Move α)) = .none := rfl

theorem reach_append (m : Move α) : reach (moves ++ [m]) = (reach moves).move m := by
  unfold reach
  rw [foldl_append]
  rfl

theorem Reach.move_up_append (ups : Nat) (names : List α) (name : α) :
    (Reach.mk ups (names ++ [name])).move .up = ⟨ups, names⟩ := by
  obtain ⟨d, l, hl⟩ := exists_cons_of_ne_nil (append_ne_nil_of_right_ne_nil names (cons_ne_nil name []))
  unfold Reach.move
  rw [hl]
  dsimp only
  rw [← hl, dropLast_concat]

/-- One move more. -/
theorem Reach.start_move (m : Move α) : (r.move m).start position = walk (r.start position) m := by
  obtain ⟨ups, names⟩ := r
  cases m with
  | into name => exact (append_assoc _ _ _).symm
  | up =>
    cases names with
    | nil =>
      show position.take (position.length - (ups + 1)) ++ [] = (position.take (position.length - ups) ++ []).dropLast
      rw [append_nil, append_nil, dropLast_eq_take, length_take, take_take]
      congr 1
      omega
    | cons name names =>
      show position.take (position.length - ups) ++ (name :: names).dropLast = _
      exact (dropLast_append_of_ne_nil (cons_ne_nil name names)).symm

theorem foldl_walk (moves : List (Move α)) (position : List α) :
    moves.foldl walk position = (reach moves).start position := by
  induction moves using List.reverseRecOn with
  | nil => simp
  | append_singleton moves m ih => rw [foldl_append, ih, reach_append, Reach.start_move, foldl_cons, foldl_nil]

/-- Moves that go up have a first one that leaves the place where they start. -/
theorem exists_first_up (h : (reach moves).ups ≠ 0) :
    ∃ before after, moves = before ++ .up :: after ∧ reach before = .none ∧
      (reach moves).ups = (reach after).ups + 1 ∧ (reach moves).names = (reach after).names := by
  induction moves using List.reverseRecOn with
  | nil => exact absurd rfl h
  | append_singleton moves m ih =>
    by_cases hups : (reach moves).ups = 0
    · -- the last move is the first one up
      rw [reach_append] at h ⊢
      generalize hr : reach moves = r at h hups ⊢
      obtain ⟨ups, names⟩ := r
      obtain rfl : ups = 0 := hups
      cases m with
      | into name => exact absurd rfl h
      | up =>
        cases names with
        | nil => exact ⟨moves, [], rfl, hr, rfl, rfl⟩
        | cons name names => exact absurd rfl h
    · obtain ⟨before, after, rfl, hbefore, hupsEq, hnames⟩ := ih hups
      refine ⟨before, after ++ [m], by simp, hbefore, ?_⟩
      rw [reach_append, reach_append]
      generalize reach (before ++ .up :: after) = r at hupsEq hnames ⊢
      generalize reach after = r' at hupsEq hnames ⊢
      obtain ⟨ups, names⟩ := r
      obtain ⟨ups', names'⟩ := r'
      obtain rfl : ups = ups' + 1 := hupsEq
      obtain rfl : names = names' := hnames
      cases m with
      | into name => exact ⟨rfl, rfl⟩
      | up =>
        cases names with
        | nil => exact ⟨rfl, rfl⟩
        | cons name names => exact ⟨rfl, rfl⟩

end

end Climb
