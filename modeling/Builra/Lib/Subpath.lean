import Mathlib.Data.List.Basic

namespace Builra.Subpath

open List

/-!
# `Lib.Subpath` — paths below a path

A path is a list of characters, and some character separates its components. `Below sep p q` says that `q` starts
with `p` and goes on at a separator, whether or not `p` itself ends in one. It is transitive, and the paths that
have a common path below them are ordered by it: they form a forest.
-/

variable {α : Type} [DecidableEq α] (sep : α)

variable (p : List α)

/-- The path with a separator at its end. -/
def closed : List α := if p.getLast? = some sep then p else p ++ [sep]

/-- The path without the separator at its end, if it has one. -/
def trimmed : List α := if p.getLast? = some sep then p.dropLast else p

/-- `q` lies under `p`. -/
def Below (p q : List α) : Prop := closed sep p <+: q

instance (p q : List α) : Decidable (Below sep p q) := inferInstanceAs (Decidable (_ <+: _))

theorem closed_eq : closed sep p = trimmed sep p ++ [sep] := by
  unfold closed trimmed
  split
  · rename_i h
    exact (dropLast_append_getLast? sep h).symm
  · rfl

theorem isPrefix_closed : p <+: closed sep p := by
  unfold closed
  split
  · exact prefix_refl p
  · exact prefix_append p [sep]

theorem trimmed_isPrefix : trimmed sep p <+: p := by
  unfold trimmed
  split
  · exact dropLast_prefix p
  · exact prefix_refl p

variable {sep} {p q x : List α}

theorem Below.isPrefix (h : Below sep p q) : p <+: q := (isPrefix_closed sep p).trans h

theorem Below.trans (h : Below sep p q) (h' : Below sep q x) : Below sep p x := List.IsPrefix.trans h h'.isPrefix

/-- A path below another one is longer. -/
theorem Below.length_lt (h : Below sep p q) (hne : p ≠ q) : p.length < q.length := by
  rcases Nat.lt_or_ge p.length q.length with hlt | hge
  · exact hlt
  · exact absurd (h.isPrefix.eq_of_length_le hge) hne

/-- Paths with the same trimmed path are the same or one lies under the other. -/
theorem below_of_trimmed_eq (h : trimmed sep p = trimmed sep q) (hne : p ≠ q) : Below sep p q ∨ Below sep q p := by
  have hclosed : closed sep p = closed sep q := by rw [closed_eq, closed_eq, h]
  unfold Below
  by_cases hp : p.getLast? = some sep
  · right
    have hself : closed sep q = p := hclosed.symm.trans (if_pos hp)
    exact ⟨[], by rw [append_nil, hself]⟩
  · left
    have hq : q.getLast? = some sep := by
      by_contra hq
      rw [trimmed, trimmed, if_neg hp, if_neg hq] at h
      exact hne h
    have hself : closed sep p = q := hclosed.trans (if_pos hq)
    exact ⟨[], by rw [append_nil, hself]⟩

/-- Two paths with a common path below them are ordered. -/
theorem below_comparable (hp : Below sep p x) (hq : Below sep q x) : p = q ∨ Below sep p q ∨ Below sep q p := by
  have horder : ∀ {p q : List α}, closed sep p <+: closed sep q → p = q ∨ Below sep p q ∨ Below sep q p := by
    intro p q h
    rw [closed_eq sep q, prefix_concat_iff] at h
    rcases h with h | h
    · rw [closed_eq] at h
      by_cases hne : p = q
      · exact .inl hne
      · exact .inr (below_of_trimmed_eq (append_cancel_right h) hne)
    · exact .inr (.inl (h.trans (trimmed_isPrefix sep q)))
  rcases prefix_or_prefix_of_prefix hp hq with h | h
  · exact horder h
  · rcases horder h with h | h | h
    · exact .inl h.symm
    · exact .inr (.inr h)
    · exact .inr (.inl h)

end Builra.Subpath
