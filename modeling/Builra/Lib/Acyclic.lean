import Mathlib.Data.Set.Card

/-!
# `Lib.Acyclic` — relations without cycles on finite sets
-/

namespace Acyclic

open Relation

variable {α : Type*} {R : α → α → Prop}

/-- No element reaches itself. -/
def NoCycle (R : α → α → Prop) : Prop := ∀ x, ¬ TransGen R x x

/-- **A finite set without cycles has a last element**: one that is related to no element of the set. -/
theorem NoCycle.exists_last {s : Set α} (h : NoCycle R) (hfin : s.Finite) (hne : s.Nonempty) :
    ∃ x ∈ s, ∀ y ∈ s, ¬ R x y := by
  have : Finite s := hfin
  let r : s → s → Prop := fun a b => TransGen R b.1 a.1
  have : IsTrans s r := ⟨fun a b c hab hbc => hbc.trans hab⟩
  have : Std.Irrefl r := ⟨fun a ha => h a.1 ha⟩
  have hwf : WellFounded r := Finite.wellFounded_of_trans_of_irrefl r
  obtain ⟨x₀, hx₀⟩ := hne
  obtain ⟨x, -, hmin⟩ := hwf.has_min Set.univ ⟨⟨x₀, hx₀⟩, trivial⟩
  exact ⟨x.1, x.2, fun y hy hR => hmin ⟨y, hy⟩ trivial (.single hR)⟩

/-- The number of elements that lead to an element. -/
noncomputable def height (R : α → α → Prop) (x : α) : ℕ := {y | TransGen R y x}.ncard

/-- Among finitely many elements, those that lead to an element are lower. -/
theorem NoCycle.height_lt {x y : α} (h : NoCycle R) (hfin : {z | TransGen R z y}.Finite) (hxy : R x y) :
    height R x < height R y := by
  refine Set.ncard_lt_ncard ?_ hfin
  refine ⟨fun z hz => TransGen.tail hz hxy, fun hsub => ?_⟩
  exact h x (hsub (TransGen.single hxy))

end Acyclic
