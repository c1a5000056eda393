import Mathlib.Data.List.Basic

/-!
# `Lib.GreedyMatch` — patterns of character classes that are repeated

A pattern is a sequence of classes, each for one element, for one or more, or for any number of them. A repetition takes
as many elements as it can, and fewer when the rest of the pattern does not match behind them.
-/

namespace GreedyMatch

open List

variable {α β : Type*}

inductive Repetition where
  | one
  | oneOrMore
  | zeroOrMore

/-- As many elements of the class as let the rest match. -/
def many (p : α → Bool) (rest : List α → Option β) : List α → Option (List α × β)
  | [] => (rest []).map (fun r => ([], r))
  | c :: l =>
    match (if p c then many p rest l else none) with
    | some (m, r) => some (c :: m, r)
    | none => (rest (c :: l)).map (fun r => ([], r))

/-- Match all of a sequence; with what each item of the pattern takes. -/
def wholeMatch : List ((α → Bool) × Repetition) → List α → Option (List (List α))
  | [], [] => some []
  | [], _ :: _ => none
  | (p, .zeroOrMore) :: pattern, l => (many p (wholeMatch pattern) l).map (fun (m, fields) => m :: fields)
  | (_, .one) :: _, [] => none
  | (p, .one) :: pattern, c :: l =>
    if p c then (wholeMatch pattern l).map (fun fields => [c] :: fields) else none
  | (_, .oneOrMore) :: _, [] => none
  | (p, .oneOrMore) :: pattern, c :: l =>
    if p c then (many p (wholeMatch pattern) l).map (fun (m, fields) => (c :: m) :: fields) else none

section

variable {p : α → Bool} {rest : List α → Option β} {l m : List α} {r : β}

/-- Something is taken, if the rest matches behind some elements of the class. -/
theorem exists_many_of_rest {t : List α} (h : l = m ++ t) (hm : ∀ c ∈ m, p c = true) (ht : rest t ≠ none) :
    ∃ found, many p rest l = some found := by
  subst h
  induction m with
  | nil =>
    obtain ⟨r, hr⟩ := Option.ne_none_iff_exists'.mp ht
    cases t with
    | nil => exact ⟨([], r), by rw [append_nil, many, hr]; rfl⟩
    | cons c t =>
      rw [nil_append, many]
      cases (if p c = true then many p rest t else none) with
      | some found => exact ⟨(c :: found.1, found.2), rfl⟩
      | none => exact ⟨([], r), by rw [hr]; rfl⟩
  | cons c m ih =>
    obtain ⟨hp, hm⟩ := forall_mem_cons.mp hm
    obtain ⟨found, hfound⟩ := ih hm
    rw [cons_append, many, if_pos hp, hfound]
    exact ⟨(c :: found.1, found.2), rfl⟩

/-- What is taken, and no more could be. -/
theorem many_eq_some : many p rest l = some (m, r) ↔
    ∃ t, l = m ++ t ∧ (∀ c ∈ m, p c = true) ∧ rest t = some r ∧
      ∀ m' t', t = m' ++ t' → m' ≠ [] → (∀ c ∈ m', p c = true) → rest t' = none := by
  induction l generalizing m r with
  | nil =>
    rw [many, Option.map_eq_some_iff]
    constructor
    · rintro ⟨r', hr, heq⟩
      cases heq
      refine ⟨[], rfl, fun c hc => absurd hc not_mem_nil, hr, fun m' t' h hne _ => ?_⟩
      exact absurd (append_eq_nil_iff.mp h.symm).1 hne
    · rintro ⟨t, h, -, hr, -⟩
      obtain ⟨rfl, rfl⟩ := append_eq_nil_iff.mp h.symm
      exact ⟨r, hr, rfl⟩
  | cons c l ih =>
    unfold many
    cases hmany : (if p c = true then many p rest l else none) with
    | some found =>
      obtain ⟨m₀, r₀⟩ := found
      have hp : p c = true := by
        by_contra hp
        rw [if_neg hp] at hmany
        cases hmany
      rw [if_pos hp] at hmany
      obtain ⟨t₀, rfl, hm₀, ht₀, hlongest₀⟩ := ih.mp hmany
      dsimp only
      rw [Option.some.injEq, Prod.mk.injEq]
      constructor
      · rintro ⟨rfl, rfl⟩
        exact ⟨t₀, rfl, forall_mem_cons.mpr ⟨hp, hm₀⟩, ht₀, hlongest₀⟩
      · rintro ⟨t, h, hm, ht, hlongest⟩
        cases m with
        | nil =>
          -- more could be taken
          have hnone := hlongest (c :: m₀) t₀ h.symm (cons_ne_nil c m₀) (forall_mem_cons.mpr ⟨hp, hm₀⟩)
          rw [ht₀] at hnone
          cases hnone
        | cons d m =>
          obtain ⟨rfl, htail⟩ := List.cons.inj h
          have heq := ih.mpr ⟨t, htail, (forall_mem_cons.mp hm).2, ht, hlongest⟩
          rw [hmany] at heq
          cases heq
          exact ⟨rfl, rfl⟩
    | none =>
      dsimp only
      rw [Option.map_eq_some_iff]
      constructor
      · rintro ⟨r', hr, heq⟩
        cases heq
        refine ⟨c :: l, rfl, fun d hd => absurd hd not_mem_nil, hr, fun m' t' h hne hm' => ?_⟩
        -- what matches behind more elements would have been found
        obtain ⟨d, m', rfl⟩ := exists_cons_of_ne_nil hne
        obtain ⟨rfl, htail⟩ := List.cons.inj h
        obtain ⟨hp, hrest⟩ := forall_mem_cons.mp hm'
        rw [if_pos hp] at hmany
        by_contra hsome
        obtain ⟨m₀, hm₀⟩ := exists_many_of_rest htail hrest hsome
        rw [hmany] at hm₀
        cases hm₀
      · rintro ⟨t, h, hm, ht, hlongest⟩
        cases m with
        | nil =>
          obtain rfl : c :: l = t := h
          exact ⟨r, ht, rfl⟩
        | cons d m =>
          obtain ⟨rfl, htail⟩ := List.cons.inj h
          obtain ⟨hp, hrest⟩ := forall_mem_cons.mp hm
          have heq := ih.mpr ⟨t, htail, hrest, ht, hlongest⟩
          rw [if_pos hp, heq] at hmany
          cases hmany

end

end GreedyMatch
