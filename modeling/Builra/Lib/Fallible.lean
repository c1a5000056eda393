/-!
# `Lib.Fallible` — computations that may fail

A sequence of computations in `Except` succeeds with its parts, and fails with the first one that fails.
-/

namespace Fallible

open Option

variable {ε α β : Type} {x : Except ε α} {f : α → Except ε β}

theorem bind_eq_ok {b : β} : x >>= f = .ok b ↔ ∃ a, x = .ok a ∧ f a = .ok b := by
  cases x with
  | error e =>
    refine iff_of_false (fun h => nomatch h) ?_
    rintro ⟨a, h, -⟩
    cases h
  | ok a =>
    constructor
    · intro h
      exact ⟨a, rfl, h⟩
    · rintro ⟨a', h, hf⟩
      cases h
      exact hf

theorem bind_eq_error {e : ε} : x >>= f = .error e ↔ x = .error e ∨ ∃ a, x = .ok a ∧ f a = .error e := by
  cases x with
  | error e' =>
    constructor
    · intro h
      cases h
      exact .inl rfl
    · rintro (h | ⟨a, h, -⟩)
      · cases h
        rfl
      · cases h
  | ok a =>
    constructor
    · intro h
      exact .inr ⟨a, rfl, h⟩
    · rintro (h | ⟨a', h, hf⟩)
      · cases h
      · cases h
        exact hf

/-! ## Lists, in `Option` -/

section

variable {γ : Type} {g : α → Option β} {h : β → Option γ} {l : List α}

/-- Two passes over a list are one, in whichever of them it fails. -/
theorem mapM_mapM : (l.mapM g).bind (fun l' => l'.mapM h) = l.mapM (fun a => (g a).bind h) := by
  induction l with
  | nil => rfl
  | cons a l ih =>
    rw [List.mapM_cons, List.mapM_cons, ← ih]
    cases g a with
    | none => rfl
    | some b =>
      simp only [bind_eq_bind, bind_some]
      cases l.mapM g with
      | none =>
        simp only [bind_none]
        cases h b with
        | none => rfl
        | some c => rfl
      | some l' =>
        simp only [bind_some, pure_def]
        rw [List.mapM_cons]
        rfl

theorem mapM_eq_some_map {k : α → β} : l.mapM g = some (l.map k) ↔ ∀ a ∈ l, g a = some (k a) := by
  induction l with
  | nil => exact iff_of_true rfl (fun a ha => nomatch ha)
  | cons a l ih =>
    rw [List.mapM_cons, List.forall_mem_cons, ← ih, List.map_cons]
    cases g a with
    | none => exact iff_of_false (fun h => nomatch h) (fun h => nomatch h.1)
    | some b =>
      cases l.mapM g with
      | none => exact iff_of_false (fun h => nomatch h) (fun h => nomatch h.2)
      | some l' =>
        show some (b :: l') = _ ↔ _
        rw [some_inj, some_inj, some_inj, List.cons.injEq]

end

end Fallible
