import Mathlib.Data.List.Basic

/-!
# `Lib.Separated` — sequences with a separator between their parts

The components of a sequence are the parts between separators that are not empty. They can be counted in one pass that
knows whether it is in a component (`runs`).
-/

namespace Separated

open List

variable {α : Type*} {sep : α} {l : List α} {parts : List (List α)}

theorem intercalate_append_singleton (hne : parts ≠ []) (part : List α) :
    [sep].intercalate (parts ++ [part]) = [sep].intercalate parts ++ sep :: part := by
  induction parts with
  | nil => exact absurd rfl hne
  | cons first parts ih =>
    cases parts with
    | nil => simp
    | cons second parts =>
      have hrest := ih (cons_ne_nil second parts)
      rw [cons_append, intercalate_cons_of_ne_nil (by simp), hrest,
        intercalate_cons_of_ne_nil (cons_ne_nil second parts)]
      simp

variable [DecidableEq α]

def components (sep : α) (l : List α) : List (List α) := (l.splitOn sep).filter (fun part => part ≠ [])

/-- The number of components that begin in the sequence. -/
def runs (sep : α) (inComponent : Bool) : List α → Nat
  | [] => 0
  | c :: l => if c = sep then runs sep false l else (if inComponent then 0 else 1) + runs sep true l

/-- Behind the first part, whatever it is, or with it. -/
theorem runs_eq (sep : α) (l : List α) :
    ∃ first parts, l.splitOn sep = first :: parts ∧
      runs sep true l = (parts.filter (fun part => part ≠ [])).length ∧ runs sep false l = (components sep l).length := by
  induction l with
  | nil => exact ⟨[], [], rfl, rfl, rfl⟩
  | cons c l ih =>
    obtain ⟨first, parts, hsplit, htrue, hfalse⟩ := ih
    by_cases hc : c = sep
    · have hcons : (c :: l).splitOn sep = [] :: l.splitOn sep := by
        rw [splitOn_cons_eq_if_modifyHead, if_pos (by simpa using hc)]
      refine ⟨[], l.splitOn sep, hcons, ?_, ?_⟩
      · rw [runs, if_pos hc]
        exact hfalse
      · rw [runs, if_pos hc, hfalse]
        unfold components
        rw [hcons, filter_cons_of_neg (by simp)]
    · have hcons : (c :: l).splitOn sep = (c :: first) :: parts := by
        rw [splitOn_cons_eq_if_modifyHead, if_neg (by simpa using hc), hsplit]
        rfl
      refine ⟨c :: first, parts, hcons, ?_, ?_⟩
      · rw [runs, if_neg hc, htrue]
        exact Nat.zero_add _
      · rw [runs, if_neg hc, htrue]
        unfold components
        rw [hcons, filter_cons_of_pos (by simp), length_cons]
        exact Nat.add_comm _ _

theorem runs_false (sep : α) (l : List α) : runs sep false l = (components sep l).length := by
  obtain ⟨first, parts, -, -, h⟩ := runs_eq sep l
  exact h

theorem components_intercalate (h : ∀ part ∈ parts, part ≠ [] ∧ sep ∉ part) (hne : parts ≠ []) :
    components sep ([sep].intercalate parts) = parts := by
  unfold components
  rw [splitOn_intercalate sep (fun part hpart => (h part hpart).2) hne]
  exact filter_eq_self.mpr (fun part hpart => by simpa using (h part hpart).1)

theorem components_append_cons_sep (l l' : List α) :
    components sep (l ++ sep :: l') = components sep l ++ components sep l' := by
  unfold components
  rw [splitOn_append_cons_self, filter_append]

theorem components_cons_sep (l : List α) : components sep (sep :: l) = components sep l := by
  unfold components
  rw [splitOn_cons_eq_if_modifyHead, if_pos (beq_self_eq_true sep), filter_cons_of_neg (by simp)]

end Separated
