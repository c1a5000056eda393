import Mathlib.Data.List.Induction

/-!
# `Lib.Digest` — running digests of sequences

A digest is started from a seed and extended by one item at a time. If extending is injective and never
gives a start value, the digest tells seeds and sequences apart.
-/

namespace Digest

open List

variable {S A I : Type*} {start : A → S} {extend : S → I → S}

/-- Starting and extending lose nothing. -/
structure Lossless (start : A → S) (extend : S → I → S) : Prop where
  start_injective : Function.Injective start
  extend_injective : ∀ {s s' : S} {i i' : I}, extend s i = extend s' i' → s = s' ∧ i = i'
  start_ne_extend : ∀ (a : A) (s : S) (i : I), start a ≠ extend s i

/-- **A lossless digest determines what was digested.** -/
theorem Lossless.foldl_eq_iff (h : Lossless start extend) {a a' : A} {l l' : List I} :
    l.foldl extend (start a) = l'.foldl extend (start a') ↔ a = a' ∧ l = l' := by
  constructor
  · -- the last items agree, and so on from the end
    induction l using List.reverseRecOn generalizing l' with
    | nil =>
      cases l' using List.reverseRecOn with
      | nil =>
        intro heq
        exact ⟨h.start_injective heq, rfl⟩
      | append_singleton l' i' =>
        intro heq
        rw [foldl_append] at heq
        exact absurd heq (h.start_ne_extend _ _ _)
    | append_singleton l i ih =>
      cases l' using List.reverseRecOn with
      | nil =>
        intro heq
        rw [foldl_append] at heq
        exact absurd heq.symm (h.start_ne_extend _ _ _)
      | append_singleton l' i' =>
        intro heq
        rw [foldl_append, foldl_append] at heq
        obtain ⟨hinit, rfl⟩ := h.extend_injective heq
        obtain ⟨ha, rfl⟩ := ih hinit
        exact ⟨ha, rfl⟩
  · rintro ⟨rfl, rfl⟩
    rfl

/-- Items that were cut into pieces of one size can be put together again. -/
theorem map_eq_of_flatMap_eq {α β : Type*} {g : α → List β} {n : Nat} (hn : 0 < n) (hg : ∀ a, (g a).length = n)
    {l l' : List α} (h : l.flatMap g = l'.flatMap g) : l.map g = l'.map g := by
  have hne : ∀ a, g a ≠ [] := fun a hnil => by
    have := hg a
    rw [hnil, length_nil] at this
    omega
  induction l generalizing l' with
  | nil =>
    cases l' with
    | nil => rfl
    | cons a' l' =>
      rw [flatMap_nil, flatMap_cons] at h
      exact absurd (append_eq_nil_iff.mp h.symm).1 (hne a')
  | cons a l ih =>
    cases l' with
    | nil =>
      rw [flatMap_nil, flatMap_cons] at h
      exact absurd (append_eq_nil_iff.mp h).1 (hne a)
    | cons a' l' =>
      rw [flatMap_cons, flatMap_cons] at h
      obtain ⟨hfirst, hrest⟩ := append_inj h (by rw [hg, hg])
      rw [map_cons, map_cons, hfirst, ih hrest]

end Digest
