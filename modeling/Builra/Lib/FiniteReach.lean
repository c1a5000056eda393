import Mathlib.Data.Set.Card
import Mathlib.Data.Set.Finite.Lattice

/-!
# `Lib.FiniteReach` — when finitely many elements can be reached

Relations under which each element has finitely many successors. From an accessible element finitely many can be
reached (`finite_reach`), and an element is accessible if its chains never come twice by the same label out of finitely
many (`acc_of_label`).
-/

namespace FiniteReach

open Relation

variable {α β : Type*} {R : α → α → Prop}

/-- What can be reached from an element, itself included. -/
def reach (R : α → α → Prop) (a : α) : Set α := {b | ReflTransGen R a b}

theorem reach_subset {a b : α} (h : R a b) : reach R b ⊆ reach R a := fun _ hc => .head h hc

/-- An element reaches itself and what its successors reach. -/
theorem reach_eq (a : α) : reach R a = {a} ∪ ⋃ b ∈ {b | R a b}, reach R b := by
  ext c
  constructor
  · intro hreach
    rcases ReflTransGen.cases_head hreach with rfl | ⟨b, hab, hbc⟩
    · exact Or.inl rfl
    · exact Or.inr (Set.mem_biUnion hab hbc)
  · rintro (rfl | hreach)
    · exact ReflTransGen.refl
    · obtain ⟨b, hab, hbc⟩ := Set.mem_iUnion₂.mp hreach
      exact reach_subset hab hbc

/-- **Finite branching without endless chains**: finitely many elements are reached. -/
theorem finite_reach {a : α} (hacc : Acc (fun b a => R a b) a)
    (hbranch : ∀ b ∈ reach R a, {c | R b c}.Finite) : (reach R a).Finite := by
  induction hacc with
  | intro a _ ih =>
    rw [reach_eq]
    refine (Set.finite_singleton a).union ((hbranch a .refl).biUnion fun b hab => ?_)
    exact ih b hab fun c hc => hbranch c (reach_subset hab hc)

/-- **The label rule**: no endless chain, if a chain never comes by a label for the second time and there are finitely
    many of them. -/
theorem acc_of_label {a : α} (label : α → β) {labels : Set β} (hfinite : labels.Finite)
    (hlabels : ∀ b ∈ reach R a, label b ∈ labels)
    (hnew : ∀ b ∈ reach R a, ∀ c, TransGen R b c → label b ≠ label c) : Acc (fun b a => R a b) a := by
  -- a successor has one label less before it
  obtain ⟨n, hn⟩ : ∃ n, labels.ncard = n := ⟨_, rfl⟩
  induction n generalizing a labels with
  | zero =>
    have hempty := (Set.ncard_eq_zero hfinite).mp hn
    have hmem := hlabels a .refl
    rw [hempty] at hmem
    exact absurd hmem (Set.notMem_empty _)
  | succ n ih =>
    have hmem : label a ∈ labels := hlabels a .refl
    have hrest : (labels \ {label a}).Finite := hfinite.sdiff
    refine Acc.intro a fun b hab => ih hrest ?_ ?_ ?_
    · intro c hc
      refine ⟨hlabels c (reach_subset hab hc), fun heq => ?_⟩
      exact hnew a .refl c (TransGen.head' hab hc) heq.symm
    · exact fun c hc => hnew c (reach_subset hab hc)
    · rw [Set.ncard_sdiff_singleton_of_mem hmem, hn]
      rfl

end FiniteReach
