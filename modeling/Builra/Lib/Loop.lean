import Mathlib.Data.Nat.Init
import Mathlib.Logic.Relation

/-!
# `Lib.Loop` — loops that may not end

A turn of a loop gives the result, or the state at the next turn. `run` makes a number of turns at most, and a loop ends
with a result if some number of turns gives it.

`while` loops whose turns make something smaller, such as what is left of a text, end for that reason (`turns`).
-/

namespace Loop

variable {σ ω : Type*}

@[grind =]
def run (turn : σ → ω ⊕ σ) : Nat → σ → Option ω
  | 0, _ => none
  | fuel + 1, s =>
    match turn s with
    | .inl result => some result
    | .inr t => run turn fuel t

def Ends (turn : σ → ω ⊕ σ) (s : σ) (result : ω) : Prop := ∃ fuel, run turn fuel s = some result

section

variable {turn : σ → ω ⊕ σ} {s t : σ} {result result' : ω}

theorem run_of_inl (h : turn s = .inl result) (fuel : Nat) : run turn (fuel + 1) s = some result := by
  unfold run
  rw [h]

theorem run_of_inr (h : turn s = .inr t) (fuel : Nat) : run turn (fuel + 1) s = run turn fuel t := by
  rw [run, h]

theorem ends_of_inl (h : turn s = .inl result) : Ends turn s result' ↔ result' = result := by
  constructor
  · rintro ⟨fuel, hrun⟩
    cases fuel with
    | zero => exact absurd hrun (by simp [run])
    | succ fuel => exact (Option.some.inj ((run_of_inl h fuel).symm.trans hrun)).symm
  · rintro rfl
    exact ⟨1, run_of_inl h 0⟩

theorem ends_of_inr (h : turn s = .inr t) : Ends turn s result ↔ Ends turn t result := by
  constructor
  · rintro ⟨fuel, hrun⟩
    cases fuel with
    | zero => exact absurd hrun (by simp [run])
    | succ fuel => exact ⟨fuel, (run_of_inr h fuel).symm.trans hrun⟩
  · rintro ⟨fuel, hrun⟩
    exact ⟨fuel + 1, (run_of_inr h fuel).trans hrun⟩

/-- States whose turns are the same. -/
theorem ends_congr (h : turn s = turn t) : Ends turn s result ↔ Ends turn t result := by
  cases hturn : turn t with
  | inl o =>
    rw [hturn] at h
    rw [ends_of_inl h, ends_of_inl hturn]
  | inr u =>
    rw [hturn] at h
    rw [ends_of_inr h, ends_of_inr hturn]

/-- More turns make no difference. -/
theorem run_mono {fuel fuel' : Nat} (hle : fuel ≤ fuel') (h : run turn fuel s = some result) :
    run turn fuel' s = some result := by
  induction fuel generalizing s fuel' with
  | zero => exact absurd h (by simp [run])
  | succ fuel ih =>
    obtain ⟨fuel', rfl⟩ : ∃ k, fuel' = k + 1 := ⟨fuel' - 1, by omega⟩
    cases hturn : turn s with
    | inl o =>
      rw [run_of_inl hturn] at h ⊢
      exact h
    | inr t =>
      rw [run_of_inr hturn] at h ⊢
      exact ih (Nat.le_of_succ_le_succ hle) h

theorem Ends.unique (h : Ends turn s result) (h' : Ends turn s result') : result = result' := by
  obtain ⟨fuel, hrun⟩ := h
  obtain ⟨fuel', hrun'⟩ := h'
  have hmax := run_mono (Nat.le_max_left fuel fuel') hrun
  have hmax' := run_mono (Nat.le_max_right fuel fuel') hrun'
  exact Option.some.inj (hmax.symm.trans hmax')

/-- The states that a loop comes to. -/
abbrev Reaches (turn : σ → ω ⊕ σ) : σ → σ → Prop := Relation.ReflTransGen (fun s t => turn s = .inr t)

theorem ends_of_reaches (h : Reaches turn s t) : Ends turn s result ↔ Ends turn t result := by
  induction h with
  | refl => exact Iff.rfl
  | tail _ hturn ih => exact ih.trans (ends_of_inr hturn)

/-- A loop that ends comes to the turn that ends it. -/
theorem Ends.reaches (h : Ends turn s result) : ∃ t, Reaches turn s t ∧ turn t = .inl result := by
  obtain ⟨fuel, hrun⟩ := h
  induction fuel generalizing s with
  | zero => exact absurd hrun (by simp [run])
  | succ fuel ih =>
    cases hturn : turn s with
    | inl o =>
      rw [run_of_inl hturn] at hrun
      exact ⟨s, .refl, by rw [hturn, Option.some.inj hrun]⟩
    | inr t =>
      rw [run_of_inr hturn] at hrun
      obtain ⟨u, hreaches, hu⟩ := ih hrun
      exact ⟨u, .head hturn hreaches, hu⟩

/-- A loop whose turns make something smaller ends. -/
theorem exists_ends {μ : σ → Nat} (hdecreases : ∀ s t, turn s = .inr t → μ t < μ s) (s : σ) :
    ∃ result, Ends turn s result := by
  induction hμ : μ s using Nat.strongRecOn generalizing s with
  | ind n ih =>
    cases hturn : turn s with
    | inl o => exact ⟨o, (ends_of_inl hturn).mpr rfl⟩
    | inr t =>
      obtain ⟨result, ht⟩ := ih (μ t) (hμ ▸ hdecreases s t hturn) t rfl
      exact ⟨result, (ends_of_inr hturn).mpr ht⟩

/-- Loops whose turns are the same where they come to. -/
theorem run_congr {turn' : σ → ω ⊕ σ} {I : σ → Prop}
    (h : ∀ s, I s → turn s = turn' s ∧ ∀ t, turn' s = .inr t → I t) (hs : I s) (fuel : Nat) :
    run turn fuel s = run turn' fuel s := by
  induction fuel generalizing s with
  | zero => rfl
  | succ fuel ih =>
    obtain ⟨heq, hnext⟩ := h s hs
    rw [run, run, heq]
    cases hturn : turn' s with
    | inl result => rfl
    | inr t => exact ih (hnext t hturn)

/-- A loop that stays where every turn leads to another one. -/
theorem not_ends {I : σ → Prop} (hkeeps : ∀ s, I s → ∃ t, turn s = .inr t ∧ I t) (hs : I s) :
    ¬ Ends turn s result := by
  rintro ⟨fuel, hrun⟩
  induction fuel generalizing s with
  | zero => exact absurd hrun (by simp [run])
  | succ fuel ih =>
    obtain ⟨t, hturn, ht⟩ := hkeeps s hs
    exact ih ht ((run_of_inr hturn fuel).symm.trans hrun)

end

/-! ## Loops that end -/

/-- At most so many turns, until there is none. -/
@[grind =]
def turns (turn : σ → Option σ) : Nat → σ → σ
  | 0, s => s
  | fuel + 1, s =>
    match turn s with
    | none => s
    | some t => turns turn fuel t

section

variable {turn : σ → Option σ} {μ : σ → Nat} {s t : σ}

theorem turns_of_none (h : turn s = none) (fuel : Nat) : turns turn fuel s = s := by
  cases fuel with
  | zero => rfl
  | succ fuel => rw [turns, h]

/-- The loop ends where no turn is left. -/
theorem turn_turns (hdecreases : ∀ s t, turn s = some t → μ t < μ s) {fuel : Nat} (hfuel : μ s ≤ fuel) :
    turn (turns turn fuel s) = none := by
  induction fuel generalizing s with
  | zero =>
    rw [turns]
    cases hturn : turn s with
    | none => rfl
    | some t =>
      have := hdecreases s t hturn
      omega
  | succ fuel ih =>
    rw [turns]
    cases hturn : turn s with
    | none => exact hturn
    | some t =>
      have := hdecreases s t hturn
      exact ih (by omega)

/-- What every turn keeps. -/
theorem turns_induction {I : σ → Prop} (hkeeps : ∀ s t, I s → turn s = some t → I t) (hs : I s) (fuel : Nat) :
    I (turns turn fuel s) := by
  induction fuel generalizing s with
  | zero => exact hs
  | succ fuel ih =>
    rw [turns]
    cases hturn : turn s with
    | none => exact hs
    | some t => exact ih (hkeeps s t hs hturn)

/-- One turn, and the loop from there. -/
theorem turns_of_some (hdecreases : ∀ s t, turn s = some t → μ t < μ s) (h : turn s = some t) :
    turns turn (μ s) s = turns turn (μ t) t := by
  have hstable : ∀ {fuel fuel' : Nat} {s : σ}, μ s ≤ fuel → μ s ≤ fuel' → turns turn fuel s = turns turn fuel' s := by
    intro fuel
    induction fuel with
    | zero =>
      intro fuel' s hfuel _
      have hnone := turn_turns hdecreases hfuel
      rw [turns] at hnone
      rw [turns, turns_of_none hnone]
    | succ fuel ih =>
      intro fuel' s hfuel hfuel'
      cases hturn : turn s with
      | none => rw [turns_of_none hturn, turns_of_none hturn]
      | some t =>
        have hlt := hdecreases s t hturn
        obtain ⟨k, rfl⟩ : ∃ k, fuel' = k + 1 := ⟨fuel' - 1, by omega⟩
        rw [turns, turns, hturn]
        exact ih (by omega) (by omega)
  have hlt := hdecreases s t h
  obtain ⟨k, hk⟩ : ∃ k, μ s = k + 1 := ⟨μ s - 1, by omega⟩
  rw [hk, turns, h]
  exact hstable (by omega) (Nat.le_refl _)

end

end Loop
