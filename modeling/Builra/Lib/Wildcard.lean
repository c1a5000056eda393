import Mathlib.Data.List.Forall2

/-!
# `Lib.Wildcard` — patterns with stars, matched with one backtrack point

A pattern is a list of items: one character that a test accepts, or a star, which passes over any sequence of
the characters of `S`. A matcher that keeps only the place behind the last star is complete as long as every test
accepts characters of `S` only (`Inner`) or none of them (`Outer`): an `Outer` item is met at the first character
outside `S`, wherever the star before it ended, and within `S` the earliest place is as good as any later one.
`Attempt` is the invariant of such a matcher, with one rule for each of its moves.
-/

namespace Wildcard

open List

variable {α : Type*}

inductive Item (α : Type*) where
  | star
  | one (accepts : α → Prop)

/-- The sequence matches the pattern, where stars pass over characters of `S`. -/
def Matches (S : α → Prop) : List (Item α) → List α → Prop
  | [], l => l = []
  | .one accepts :: q, l => ∃ c rest, l = c :: rest ∧ accepts c ∧ Matches S q rest
  | .star :: q, l => ∃ s rest, l = s ++ rest ∧ (∀ c ∈ s, S c) ∧ Matches S q rest

/-- A test that accepts characters of `S` only. -/
def Inner (S accepts : α → Prop) : Prop := ∀ c, accepts c → S c

/-- A test that accepts no character of `S`. -/
def Outer (S accepts : α → Prop) : Prop := ∀ c, accepts c → ¬ S c

/-- Another attempt, which starts behind the place of the backtrack point, succeeds. -/
def Later (S : α → Prop) (bt : Option (List (Item α) × List α)) : Prop :=
  ∃ q c l, bt = some (q, c :: l) ∧ S c ∧ Matches S (.star :: q) l

/-! ## Matching -/

section Matches

variable {S accepts : α → Prop} {q q' : List (Item α)} {c : α} {l l' s : List α}

theorem matches_nil : Matches S [] l ↔ l = [] := Iff.rfl

theorem not_matches_one_nil : ¬ Matches S (.one accepts :: q) [] := by
  rintro ⟨c, rest, h, -⟩
  exact absurd h.symm (cons_ne_nil c rest)

theorem matches_one_cons : Matches S (.one accepts :: q) (c :: l) ↔ accepts c ∧ Matches S q l := by
  constructor
  · rintro ⟨c', rest, h, hc, hm⟩
    cases h
    exact ⟨hc, hm⟩
  · rintro ⟨hc, hm⟩
    exact ⟨c, l, rfl, hc, hm⟩

/-- A star is given up, or passes over one more character. -/
theorem matches_star_iff : Matches S (.star :: q) l ↔ Matches S q l ∨ Later S (some (q, l)) := by
  constructor
  · rintro ⟨s, rest, rfl, hs, hm⟩
    cases s with
    | nil => exact .inl hm
    | cons c s =>
      have htail : ∀ d ∈ s, S d := fun d hd => hs d (mem_cons_of_mem _ hd)
      exact .inr ⟨q, c, s ++ rest, rfl, hs c mem_cons_self, s, rest, rfl, htail, hm⟩
  · rintro (hm | ⟨q', c, l', h, hc, s, rest, rfl, hs, hm⟩)
    · exact ⟨[], l, rfl, by simp, hm⟩
    · cases h
      refine ⟨c :: s, rest, rfl, ?_, hm⟩
      intro d hd
      rcases mem_cons.mp hd with rfl | hd
      · exact hc
      · exact hs d hd

theorem matches_star_append (hs : ∀ d ∈ s, S d) (h : Matches S (.star :: q) l) : Matches S (.star :: q) (s ++ l) := by
  obtain ⟨s', rest, rfl, hs', hm⟩ := h
  refine ⟨s ++ s', rest, by rw [append_assoc], ?_, hm⟩
  intro d hd
  exact (mem_append.mp hd).elim (hs d) (hs' d)

/-- Several stars in a row are one. -/
theorem matches_star_star : Matches S (.star :: .star :: q) l ↔ Matches S (.star :: q) l := by
  constructor
  · rintro ⟨s, rest, rfl, hs, hm⟩
    exact matches_star_append hs hm
  · intro h
    exact ⟨[], l, rfl, by simp, h⟩

theorem matches_star_nil : Matches S [.star] l ↔ ∀ c ∈ l, S c := by
  constructor
  · rintro ⟨s, rest, rfl, hs, hm⟩
    rw [matches_nil.mp hm, append_nil]
    exact hs
  · intro h
    exact ⟨l, [], (append_nil l).symm, h, rfl⟩

/-- Up to the first character outside `S`, two ways to cut a sequence are the same. -/
theorem cut_unique {s s' : List α} {c c' : α} {l l' : List α} (hs : ∀ d ∈ s, S d) (hs' : ∀ d ∈ s', S d) (hc : ¬ S c)
    (hc' : ¬ S c') (h : s ++ c :: l = s' ++ c' :: l') : s = s' ∧ c = c' ∧ l = l' := by
  induction s generalizing s' with
  | nil =>
    cases s' with
    | nil =>
      cases h
      exact ⟨rfl, rfl, rfl⟩
    | cons d s' =>
      obtain ⟨rfl, -⟩ := List.cons.inj h
      exact absurd (hs' c mem_cons_self) hc
  | cons d s ih =>
    cases s' with
    | nil =>
      obtain ⟨rfl, -⟩ := List.cons.inj h
      exact absurd (hs d mem_cons_self) hc'
    | cons d' s' =>
      obtain ⟨rfl, htail⟩ := List.cons.inj h
      obtain ⟨rfl, hcc, hll⟩ := ih (fun e he => hs e (mem_cons_of_mem _ he))
        (fun e he => hs' e (mem_cons_of_mem _ he)) htail
      exact ⟨rfl, hcc, hll⟩

/-- Behind a star, an item outside `S` is met at the first character outside `S`. -/
theorem matches_star_outer (hout : Outer S accepts) (hs : ∀ d ∈ s, S d) (hc : ¬ S c) :
    Matches S (.star :: .one accepts :: q) (s ++ c :: l) ↔ Matches S (.one accepts :: q) (c :: l) := by
  constructor
  · rintro ⟨s', rest, h, hs', c', l', rfl, hacc, hm⟩
    obtain ⟨-, rfl, rfl⟩ := cut_unique hs hs' hc (hout c' hacc) h
    exact ⟨c, l, rfl, hacc, hm⟩
  · intro h
    exact ⟨s, c :: l, rfl, hs, h⟩

theorem not_matches_star_outer (hout : Outer S accepts) (hl : ∀ d ∈ l, S d) :
    ¬ Matches S (.star :: .one accepts :: q) l := by
  rintro ⟨s, rest, rfl, -, c, l', rfl, hacc, -⟩
  exact hout c hacc (hl c (by simp))

/-- A run of inner items matches one character of `S` each. -/
theorem matches_inner_append {passed : List (Item α)} (hin : ∀ i ∈ passed, ∃ p, i = .one p ∧ Inner S p)
    (h : Matches S (passed ++ q) l) :
    ∃ v rest, l = v ++ rest ∧ v.length = passed.length ∧ (∀ d ∈ v, S d) ∧ Matches S q rest := by
  induction passed generalizing l with
  | nil => exact ⟨[], l, rfl, rfl, by simp, h⟩
  | cons i passed ih =>
    obtain ⟨p, rfl, hp⟩ := hin i mem_cons_self
    obtain ⟨c, rest, rfl, hc, hm⟩ := h
    obtain ⟨v, rest', rfl, hlen, hv, hm'⟩ := ih (fun j hj => hin j (mem_cons_of_mem _ hj)) hm
    refine ⟨c :: v, rest', rfl, by simp [hlen], ?_, hm'⟩
    intro d hd
    rcases mem_cons.mp hd with rfl | hd
    · exact hp d hc
    · exact hv d hd

/-- A later attempt that has passed the same inner items has passed more characters. -/
theorem later_inner {passed : List (Item α)} {v : List α} (hin : ∀ i ∈ passed, ∃ p, i = .one p ∧ Inner S p)
    (hlen : passed.length = v.length) (h : Later S (some (passed ++ q, v ++ l))) :
    ∃ u rest, v ++ l = u ++ rest ∧ v.length < u.length ∧ (∀ d ∈ u, S d) ∧ Matches S q rest := by
  obtain ⟨q', c, l', heq, hc, s, rest, rfl, hs, hm⟩ := h
  obtain ⟨rfl, hl⟩ := Prod.mk.inj (Option.some.inj heq)
  obtain ⟨w, rest', rfl, hw, hwS, hm'⟩ := matches_inner_append hin hm
  refine ⟨c :: (s ++ w), rest', by simp [hl], ?_, ?_, hm'⟩
  · rw [length_cons, length_append, hw, hlen]
    omega
  · intro d hd
    rcases mem_cons.mp hd with rfl | hd
    · exact hc
    · exact (mem_append.mp hd).elim (hs d) (hwS d)

/-- What is left behind a longer prefix is left behind the rest of a shorter one. -/
theorem exists_of_append_eq {v u l rest : List α} (h : v ++ l = u ++ rest) (hlt : v.length < u.length) :
    ∃ w, w ≠ [] ∧ u = v ++ w ∧ l = w ++ rest := by
  obtain ⟨w, rfl⟩ : v <+: u := prefix_of_prefix_length_le ⟨l, h⟩ ⟨rest, rfl⟩ (Nat.le_of_lt hlt)
  refine ⟨w, ?_, rfl, ?_⟩
  · rintro rfl
    simp at hlt
  · rw [append_assoc] at h
    exact append_cancel_left h

end Matches

/-! ## A matcher with one backtrack point -/

/-- What a matcher knows at the place where it stands, `q` against `l` with the backtrack point `bt`: the answer is
decided by this attempt and the later ones, and the later ones are all behind this one, or of no use. -/
structure Attempt (S : α → Prop) (answer : Prop) (q : List (Item α)) (l : List α)
    (bt : Option (List (Item α) × List α)) : Prop where
  answer_iff : answer ↔ Matches S q l ∨ Later S bt
  behind : ∀ bq bl, bt = some (bq, bl) →
    (∃ passed v, bq = passed ++ q ∧ bl = v ++ l ∧ passed.length = v.length ∧
      (∀ i ∈ passed, ∃ p, i = .one p ∧ Inner S p) ∧ ∀ d ∈ v, S d) ∨
    (Later S bt → Matches S q l)

namespace Attempt

variable {S accepts : α → Prop} {answer : Prop} {q bq : List (Item α)} {c : α} {l bl s : List α}
  {bt : Option (List (Item α) × List α)}

theorem start : Attempt S (Matches S q l) q l none where
  answer_iff := by
    refine ⟨Or.inl, ?_⟩
    rintro (h | ⟨_, _, _, h, -⟩)
    · exact h
    · exact absurd h (Option.some_ne_none _).symm
  behind _ _ h := absurd h (Option.some_ne_none _).symm

/-- The backtrack point moves behind a star. -/
theorem star_pushed (answer_iff : answer ↔ Matches S q l ∨ Later S (some (q, l))) :
    Attempt S answer q l (some (q, l)) where
  answer_iff := answer_iff
  behind := by
    intro bq bl h
    cases h
    exact .inl ⟨[], [], rfl, rfl, rfl, by simp, by simp⟩

/-- What the later attempts that are of use match, seen from here: a non-empty part of what is left is passed over. -/
theorem later_cases (h : Attempt S answer q l bt) (hlater : Later S bt) :
    Matches S q l ∨ ∃ w rest, w ≠ [] ∧ l = w ++ rest ∧ (∀ d ∈ w, S d) ∧ Matches S q rest := by
  obtain ⟨bq, c, bl, rfl, hc, hm⟩ := hlater
  rcases h.behind bq (c :: bl) rfl with ⟨passed, v, rfl, hbl, hlen, hin, hv⟩ | huseless
  · rw [hbl] at h
    have hlater : Later S (some (passed ++ q, v ++ l)) := ⟨passed ++ q, c, bl, by rw [hbl], hc, hm⟩
    obtain ⟨u, rest, heq, hlt, hu, hm'⟩ := later_inner hin hlen hlater
    obtain ⟨w, hne, rfl, rfl⟩ := exists_of_append_eq heq hlt
    exact .inr ⟨w, rest, hne, rfl, fun d hd => hu d (mem_append_right _ hd), hm'⟩
  · exact .inl (huseless ⟨bq, c, bl, rfl, hc, hm⟩)

/-- At a star, the later attempts are of no use any more. -/
theorem star_iff (h : Attempt S answer (.star :: q) l bt) : answer ↔ Matches S (.star :: q) l := by
  rw [h.answer_iff]
  refine ⟨?_, Or.inl⟩
  rintro (hm | hlater)
  · exact hm
  · rcases h.later_cases hlater with hm | ⟨w, rest, -, rfl, hw, hm⟩
    · exact hm
    · exact matches_star_append hw hm

theorem star (h : Attempt S answer (.star :: q) l bt) : Attempt S answer q l (some (q, l)) :=
  star_pushed (h.star_iff.trans matches_star_iff)

theorem star_star (h : Attempt S answer (.star :: .star :: q) l bt) : Attempt S answer (.star :: q) l bt where
  answer_iff := by
    refine ⟨fun ha => .inl (matches_star_star.mp (h.star_iff.mp ha)), ?_⟩
    rintro (hm | hlater)
    · exact h.star_iff.mpr (matches_star_star.mpr hm)
    · exact h.answer_iff.mpr (.inr hlater)
  behind := by
    intro bq bl hbt
    refine .inr ?_
    intro hlater
    exact matches_star_star.mp (h.star_iff.mp (h.answer_iff.mpr (.inr hlater)))

theorem star_end (h : Attempt S answer [.star] l bt) : answer ↔ ∀ d ∈ l, S d := h.star_iff.trans matches_star_nil

/-- The later attempts have to match the item as well, and to match it further on. -/
theorem not_of_inner (h : Attempt S answer (.one accepts :: q) l bt) (hin : Inner S accepts)
    (hl : ∀ d, l.head? = some d → ¬ S d) : ¬ answer := by
  have hnot : ¬ Matches S (.one accepts :: q) l := by
    rintro ⟨d, rest, rfl, hd, -⟩
    exact hl d rfl (hin d hd)
  rw [h.answer_iff]
  rintro (hm | hlater)
  · exact hnot hm
  · rcases h.later_cases hlater with hm | ⟨w, rest, hne, rfl, hw, -⟩
    · exact hnot hm
    · cases w with
      | nil => exact hne rfl
      | cons d w => exact hl d rfl (hw d mem_cons_self)

/-- An item, and nothing left. -/
theorem not_of_nil (h : Attempt S answer (.one accepts :: q) [] bt) : ¬ answer := by
  rw [h.answer_iff]
  rintro (hm | hlater)
  · exact not_matches_one_nil hm
  · rcases h.later_cases hlater with hm | ⟨w, rest, hne, hnil, -⟩
    · exact not_matches_one_nil hm
    · exact hne (append_eq_nil_iff.mp hnil.symm).1

section

variable (h : Attempt S answer (.one accepts :: q) (c :: l) bt)
include h

/-- Pass an item of `S`. -/
theorem pass_inner (hin : Inner S accepts) (hc : accepts c) :
    Attempt S answer q l bt where
  answer_iff := by
    rw [h.answer_iff, matches_one_cons]
    exact ⟨fun hm => hm.imp And.right id, fun hm => hm.imp (And.intro hc) id⟩
  behind := by
    intro bq bl hbt
    rcases h.behind bq bl hbt with ⟨passed, v, rfl, rfl, hlen, hpassed, hv⟩ | huseless
    · refine .inl ⟨passed ++ [.one accepts], v ++ [c], by simp, by simp, by simp [hlen], ?_, ?_⟩
      · intro i hi
        rcases mem_append.mp hi with hi | hi
        · exact hpassed i hi
        · exact ⟨accepts, mem_singleton.mp hi, hin⟩
      · intro d hd
        rcases mem_append.mp hd with hd | hd
        · exact hv d hd
        · rw [mem_singleton.mp hd]
          exact hin c hc
    · exact .inr (fun hlater => (matches_one_cons.mp (huseless hlater)).2)

/-- Pass an item outside `S`: no later attempt can be of use. -/
theorem pass_outer (hout : Outer S accepts) (hc : accepts c) :
    Attempt S answer q l bt where
  answer_iff := by
    rw [h.answer_iff, matches_one_cons]
    exact ⟨fun hm => hm.imp And.right id, fun hm => hm.imp (And.intro hc) id⟩
  behind := by
    intro bq bl hbt
    refine .inr ?_
    intro hlater
    rcases h.later_cases hlater with hm | ⟨w, rest, hne, heq, hw, -⟩
    · exact (matches_one_cons.mp hm).2
    · cases w with
      | nil => exact absurd rfl hne
      | cons d w =>
        obtain ⟨rfl, -⟩ := List.cons.inj heq
        exact absurd (hw c mem_cons_self) (hout c hc)

end

/-- Behind a star, go to the first character outside `S`. -/
theorem jump (h : Attempt S answer (.star :: .one accepts :: q) (s ++ c :: l) bt) (hout : Outer S accepts)
    (hs : ∀ d ∈ s, S d) (hc : ¬ S c) : Attempt S answer (.one accepts :: q) (c :: l) bt where
  answer_iff := by
    refine (h.star_iff.trans (matches_star_outer hout hs hc)).trans ⟨Or.inl, ?_⟩
    rintro (hm | hlater)
    · exact hm
    · exact (matches_star_outer hout hs hc).mp (h.star_iff.mp (h.answer_iff.mpr (.inr hlater)))
  behind := by
    intro bq bl hbt
    refine .inr ?_
    intro hlater
    exact (matches_star_outer hout hs hc).mp (h.star_iff.mp (h.answer_iff.mpr (.inr hlater)))

theorem not_of_jump (h : Attempt S answer (.star :: .one accepts :: q) l bt) (hout : Outer S accepts)
    (hl : ∀ d ∈ l, S d) : ¬ answer := by
  rw [h.star_iff]
  exact not_matches_star_outer hout hl

theorem done (h : Attempt S answer [] [] bt) : answer := h.answer_iff.mpr (.inl rfl)

/-- Where an attempt fails, the next one starts one character behind the start of this one. -/
theorem backtrack (h : Attempt S answer q l (some (bq, c :: bl))) (hm : ¬ Matches S q l) (hc : S c) :
    Attempt S answer bq bl (some (bq, bl)) := by
  refine star_pushed ?_
  rw [h.answer_iff, ← matches_star_iff]
  constructor
  · rintro (hm' | ⟨q', c', l', heq, -, hlater⟩)
    · exact absurd hm' hm
    · obtain ⟨rfl, hl⟩ := Prod.mk.inj (Option.some.inj heq)
      cases hl
      exact hlater
  · intro hlater
    exact .inr ⟨bq, c, bl, rfl, hc, hlater⟩

/-- Where an attempt fails and none is left, the answer is no. -/
theorem not_of_no_backtrack (h : Attempt S answer q l bt) (hm : ¬ Matches S q l)
    (hbt : ∀ bq c bl, bt = some (bq, c :: bl) → ¬ S c) : ¬ answer := by
  rw [h.answer_iff]
  rintro (hm' | ⟨bq, c, bl, rfl, hc, -⟩)
  · exact hm hm'
  · exact hbt bq c bl rfl hc

end Attempt

/-! ## Patterns in components -/

section Components

variable {S : α → Prop} {q q' : List (Item α)} {l : List α} {sep : α}

/-- An item that matches within `S`. -/
def Item.Within (S : α → Prop) : Item α → Prop
  | .star => True
  | .one accepts => Inner S accepts

/-- An item, as far as it matches within `S`. -/
def Item.restrict (S : α → Prop) : Item α → Item α
  | .star => .star
  | .one accepts => .one (fun c => S c ∧ accepts c)

theorem Item.within_restrict (i : Item α) : (i.restrict S).Within S := by
  cases i with
  | star => trivial
  | one accepts => exact fun _ hc => hc.1

theorem matches_within (hq : ∀ i ∈ q, i.Within S) (h : Matches S q l) : ∀ c ∈ l, S c := by
  induction q generalizing l with
  | nil =>
    obtain rfl := matches_nil.mp h
    exact fun _ hc => absurd hc not_mem_nil
  | cons i q ih =>
    have hrest := fun {l'} => ih (l := l') (fun j hj => hq j (mem_cons_of_mem _ hj))
    cases i with
    | star =>
      obtain ⟨s, rest, rfl, hs, hm⟩ := h
      exact fun c hc => (mem_append.mp hc).elim (hs c) (hrest hm c)
    | one accepts =>
      obtain ⟨d, rest, rfl, hd, hm⟩ := h
      intro c hc
      rcases mem_cons.mp hc with rfl | hc
      · exact hq _ mem_cons_self c hd
      · exact hrest hm c hc

/-- Within `S`, a pattern matches as it does without the restriction. -/
theorem matches_restrict (hl : ∀ c ∈ l, S c) :
    Matches S (q.map (Item.restrict S)) l ↔ Matches (fun _ => True) q l := by
  induction q generalizing l with
  | nil => exact Iff.rfl
  | cons i q ih =>
    cases i with
    | star =>
      constructor
      · rintro ⟨s, rest, rfl, -, hm⟩
        exact ⟨s, rest, rfl, fun _ _ => trivial, (ih (fun c hc => hl c (mem_append_right _ hc))).mp hm⟩
      · rintro ⟨s, rest, rfl, -, hm⟩
        exact ⟨s, rest, rfl, fun c hc => hl c (mem_append_left _ hc),
          (ih (fun c hc => hl c (mem_append_right _ hc))).mpr hm⟩
    | one accepts =>
      constructor
      · rintro ⟨c, rest, rfl, hc, hm⟩
        exact ⟨c, rest, rfl, hc.2, (ih (fun d hd => hl d (mem_cons_of_mem _ hd))).mp hm⟩
      · rintro ⟨c, rest, rfl, hc, hm⟩
        exact ⟨c, rest, rfl, ⟨hl c mem_cons_self, hc⟩, (ih (fun d hd => hl d (mem_cons_of_mem _ hd))).mpr hm⟩

theorem matches_append : Matches S (q ++ q') l ↔ ∃ l₁ l₂, l = l₁ ++ l₂ ∧ Matches S q l₁ ∧ Matches S q' l₂ := by
  induction q generalizing l with
  | nil =>
    constructor
    · intro h
      exact ⟨[], l, rfl, rfl, h⟩
    · rintro ⟨l₁, l₂, rfl, h, hm⟩
      rwa [matches_nil.mp h]
  | cons i q ih =>
    cases i with
    | star =>
      constructor
      · rintro ⟨s, rest, rfl, hs, hm⟩
        obtain ⟨l₁, l₂, rfl, h₁, h₂⟩ := ih.mp hm
        exact ⟨s ++ l₁, l₂, (append_assoc _ _ _).symm, ⟨s, l₁, rfl, hs, h₁⟩, h₂⟩
      · rintro ⟨l₁, l₂, rfl, ⟨s, rest, rfl, hs, h₁⟩, h₂⟩
        exact ⟨s, rest ++ l₂, append_assoc _ _ _, hs, ih.mpr ⟨rest, l₂, rfl, h₁, h₂⟩⟩
    | one accepts =>
      constructor
      · rintro ⟨c, rest, rfl, hc, hm⟩
        obtain ⟨l₁, l₂, rfl, h₁, h₂⟩ := ih.mp hm
        exact ⟨c :: l₁, l₂, rfl, ⟨c, l₁, rfl, hc, h₁⟩, h₂⟩
      · rintro ⟨l₁, l₂, rfl, ⟨c, rest, rfl, hc, h₁⟩, h₂⟩
        exact ⟨c, rest ++ l₂, rfl, hc, ih.mpr ⟨rest, l₂, rfl, h₁, h₂⟩⟩

/-- Patterns, with the separator between them. -/
def joined (sep : α) : List (List (Item α)) → List (Item α)
  | [] => []
  | [q] => q
  | q :: r :: qs => q ++ .one (fun c => c = sep) :: joined sep (r :: qs)

variable [DecidableEq α]

omit [DecidableEq α] in
/-- Two relations that agree on the members of the second list relate the same lists to it. -/
theorem forall₂_congr_right {β γ : Type*} {R R' : β → γ → Prop} {l₁ : List β} {l₂ : List γ}
    (h : ∀ b, ∀ c ∈ l₂, R b c ↔ R' b c) : List.Forall₂ R l₁ l₂ ↔ List.Forall₂ R' l₁ l₂ := by
  induction l₂ generalizing l₁ with
  | nil => rw [forall₂_nil_right_iff, forall₂_nil_right_iff]
  | cons c l₂ ih =>
    have hrest : ∀ {l₁}, List.Forall₂ R l₁ l₂ ↔ List.Forall₂ R' l₁ l₂ :=
      fun {_} => ih (fun b d hd => h b d (mem_cons_of_mem _ hd))
    cases l₁ with
    | nil => simp
    | cons b l₁ => rw [forall₂_cons, forall₂_cons, h b c mem_cons_self, hrest]

/-- No component contains the separator. -/
theorem notMem_of_mem_splitOn {t : List α} (h : t ∈ l.splitOn sep) : sep ∉ t := by
  induction hn : l.length using Nat.strongRecOn generalizing l with
  | _ n ih =>
    by_cases hl : sep ∈ l
    · obtain ⟨l₁, l₂, rfl, hl₁⟩ := eq_append_cons_of_mem hl
      rw [splitOn_append_cons_self_of_not_mem hl₁] at h
      rcases mem_cons.mp h with rfl | h
      · exact hl₁
      · exact ih l₂.length (by rw [← hn, length_append, length_cons]; omega) h rfl
    · rw [splitOn_eq_singleton hl] at h
      rwa [mem_singleton.mp h]

/-- Components that do not match the separator are matched one by one. -/
theorem matches_joined (hS : ∀ c, S c ↔ c ≠ sep) {qs : List (List (Item α))} (hne : qs ≠ [])
    (hq : ∀ q ∈ qs, ∀ i ∈ q, i.Within S) :
    Matches S (joined sep qs) l ↔ List.Forall₂ (Matches S) qs (l.splitOn sep) := by
  induction qs generalizing l with
  | nil => exact absurd rfl hne
  | cons q qs ih =>
    have hqS : ∀ {l'}, Matches S q l' → sep ∉ l' :=
      fun hm hsep => (hS sep).mp (matches_within (hq q mem_cons_self) hm sep hsep) rfl
    by_cases hl : sep ∈ l
    · obtain ⟨l₁, l₂, rfl, hl₁⟩ := eq_append_cons_of_mem hl
      rw [splitOn_append_cons_self_of_not_mem hl₁]
      cases qs with
      | nil =>
        refine iff_of_false (fun h => hqS h hl) ?_
        intro h
        rw [forall₂_cons] at h
        exact splitOn_ne_nil sep l₂ (forall₂_nil_left_iff.mp h.2)
      | cons r qs =>
        have hrest := ih (l := l₂) (cons_ne_nil _ _) (fun p hp => hq p (mem_cons_of_mem _ hp))
        rw [forall₂_cons, ← hrest]
        constructor
        · intro h
          obtain ⟨k₁, k₂, heq, h₁, c, rest, rfl, rfl, h₂⟩ := matches_append.mp h
          have hk : ∀ d ∈ k₁, d ≠ c := fun d hd hdc => hqS h₁ (hdc ▸ hd)
          obtain ⟨rfl, -, rfl⟩ := cut_unique (S := fun d => d ≠ c) (fun d hd hdc => hl₁ (hdc ▸ hd)) hk
            (not_not_intro rfl) (not_not_intro rfl) heq
          exact ⟨h₁, h₂⟩
        · rintro ⟨h₁, h₂⟩
          exact matches_append.mpr ⟨l₁, sep :: l₂, rfl, h₁, sep, l₂, rfl, rfl, h₂⟩
    · rw [splitOn_eq_singleton hl]
      cases qs with
      | nil => simp [joined]
      | cons r qs =>
        refine iff_of_false ?_ (fun h => by simp at h)
        intro h
        obtain ⟨l₁, l₂, rfl, -, c, rest, rfl, rfl, -⟩ := matches_append.mp h
        exact hl (by simp)

end Components

end Wildcard
