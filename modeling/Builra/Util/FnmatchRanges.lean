import Builra.Util.FnmatchMatches

namespace Builra.Fnmatch

/-!
# `Util.FnmatchRanges` — ranges in descending order

`rangematch` forms a range from two characters of the pattern before it looks at the character under test, and a range
in descending order is a runtime error. Whether the text of a bracket comes to such a range does not depend on the
character under test (`Descends`), so that `fnmatch` returns or throws exactly where no turn of its loop opens such a
bracket.
-/

section Ranges

variable {Character : Type} [LinearOrder Character] (alphabet : Alphabet Character) (options : FnmatchOptions)
  (pathSeparators : List Character)

/-- The character as it is compared. -/
def folded (c : Character) : Character := if options.caseInsensitive then alphabet.lowercased c else c

/-- The character ends what a bracket lists: it closes the bracket, or it must not stand in one. -/
def Stops (c : Character) : Prop := c = alphabet.literal ']' ∨ options.pathname = true ∧ c ∈ pathSeparators

/-- The text of a bracket comes to a range in descending order. -/
inductive Descends : List Character → Prop where
  | here {first last} {text} : ¬ Stops alphabet options pathSeparators first →
      last ≠ alphabet.literal ']' → folded alphabet options last < folded alphabet options first →
      Descends (first :: alphabet.literal '-' :: last :: text)
  | range {first last} {text} : ¬ Stops alphabet options pathSeparators first →
      last ≠ alphabet.literal ']' → folded alphabet options first ≤ folded alphabet options last →
      Descends text → Descends (first :: alphabet.literal '-' :: last :: text)
  | single {c} {text} : ¬ Stops alphabet options pathSeparators c →
      text.head? ≠ some (alphabet.literal '-') → Descends text → Descends (c :: text)

/-- The text behind `[` is a bracket, and comes to a range in descending order. -/
def DescendingBracket (text : List Character) : Prop :=
  alphabet.literal ']' ∈ text ∧
    Descends alphabet options pathSeparators
      (if text.head? = some (alphabet.literal '!') then text.tail else text)

/-- At this turn, the text is read as what stands behind `[`. Where the bracket meets a separator, the loop goes back
first, and it is the pattern behind the last star that is read so. -/
inductive Opens (s : State Character) : List Character → Prop where
  | here {text sc input} : s.pattern = alphabet.literal '[' :: text → s.input = sc :: input →
      ¬ (sc ∈ pathSeparators ∧ options.pathname = true) → Opens s text
  | behind {pattern sc input t} : s.pattern = alphabet.literal '[' :: pattern → s.input = sc :: input →
      sc ∈ pathSeparators → options.pathname = true →
      backtrack alphabet options { s with pattern := pattern } = some t → Opens s t.pattern

/-- In a run of `fnmatch`, a bracket with a range in descending order is opened. -/
def RunDescends (pattern input : List Character) : Prop :=
  ∃ t text, Reaches alphabet options pathSeparators (start pattern input) t ∧
    Opens alphabet options pathSeparators t text ∧ DescendingBracket alphabet options pathSeparators text

/-! ## A bracket -/

variable {alphabet options pathSeparators}

theorem not_descends_nil : ¬ Descends alphabet options pathSeparators [] := by
  intro h
  cases h

variable {text : List Character}

theorem not_descends_of_stops {c : Character} (hc : Stops alphabet options pathSeparators c) :
    ¬ Descends alphabet options pathSeparators (c :: text) := by
  intro h
  cases h with
  | here hfirst | range hfirst | single hfirst => exact hfirst hc

theorem descends_range_iff {first last : Character}
    (hfirst : ¬ Stops alphabet options pathSeparators first) (hlast : last ≠ alphabet.literal ']') :
    Descends alphabet options pathSeparators (first :: alphabet.literal '-' :: last :: text) ↔
      folded alphabet options last < folded alphabet options first ∨ Descends alphabet options pathSeparators text := by
  constructor
  · intro h
    cases h with
    | here _ _ hlt => exact .inl hlt
    | range _ _ _ h => exact .inr h
    | single _ hhead _ => exact absurd rfl hhead
  · rintro (hlt | h)
    · exact .here hfirst hlast hlt
    · rcases lt_or_ge (folded alphabet options last) (folded alphabet options first) with hlt | hle
      · exact .here hfirst hlast hlt
      · exact .range hfirst hlast hle h

theorem descends_single_iff {c : Character} (hc : ¬ Stops alphabet options pathSeparators c)
    (hhead : text.head? ≠ some (alphabet.literal '-')) :
    Descends alphabet options pathSeparators (c :: text) ↔ Descends alphabet options pathSeparators text := by
  constructor
  · intro h
    cases h with
    | here | range => exact absurd rfl hhead
    | single _ _ h => exact h
  · exact .single hc hhead

/-- A dash at the end of the pattern is not the middle of a range, and neither is one before the closing bracket. -/
theorem not_descends_dash {c : Character}
    (htext : ∀ last rest, text = last :: rest → last = alphabet.literal ']') :
    ¬ Descends alphabet options pathSeparators (c :: alphabet.literal '-' :: text) := by
  intro h
  cases h with
  | here _ hlast | range _ hlast => exact hlast (htext _ _ rfl)
  | single _ hhead => exact hhead rfl

/-- The loop over what is listed, whatever the character under test. -/
theorem rangeLoop_trap_iff (test : Character) (ok : Bool) (pattern : List Character) :
    (rangeLoop alphabet options pathSeparators test ok pattern).1 = .trap ↔
      Descends alphabet options pathSeparators pattern := by
  fun_induction rangeLoop alphabet options pathSeparators test ok pattern with
  | case1 => exact iff_of_false (by simp) not_descends_nil
  | case2 => exact iff_of_false (by simp) (not_descends_of_stops (.inl rfl))
  | case3 ok c pattern hclose hsep => exact iff_of_false (by simp) (not_descends_of_stops (.inr hsep))
  | case4 ok c hclose hsep _ ih =>
    rw [ih]
    exact (descends_single_iff (not_or_intro hclose hsep) (by simp)).symm
  | case5 ok c hclose hsep ih =>
    rw [ih]
    refine iff_of_false ?_ (not_descends_dash (by simp))
    intro h
    cases h with
    | single _ _ h => exact not_descends_nil h
  | case6 ok c hclose hsep rest =>
    refine iff_of_false (by simp) (not_descends_dash ?_)
    rintro last rest' h
    exact (List.cons.inj h).1.symm
  | case7 ok c hclose hsep first c2 rest hlast last hle ih =>
    rw [ih, descends_range_iff (not_or_intro hclose hsep) hlast]
    exact (or_iff_right (not_lt_of_ge hle)).symm
  | case8 ok c hclose hsep first c2 rest hlast last hle =>
    exact iff_of_true rfl (.here (not_or_intro hclose hsep) hlast (lt_of_not_ge hle))
  | case9 ok c hclose hsep first d subPattern hd ih =>
    rw [ih]
    exact (descends_single_iff (not_or_intro hclose hsep) (by simpa using hd)).symm

theorem rangematch_trap_iff (pattern : List Character) (test : Character) :
    (rangematch alphabet options pathSeparators pattern test).1 = .trap ↔
      DescendingBracket alphabet options pathSeparators pattern := by
  unfold rangematch DescendingBracket
  by_cases hclose : alphabet.literal ']' ∈ pattern
  · rw [if_neg (not_not_intro hclose), and_iff_right hclose]
    simp only [decide_eq_true_eq]
    rw [← rangeLoop_trap_iff (if options.caseInsensitive then alphabet.lowercased test else test) false]
    generalize rangeLoop alphabet options pathSeparators _ false _ = r
    obtain ⟨status, ok, rest⟩ := r
    cases status with
    | «match» =>
      refine iff_of_false ?_ (by simp)
      dsimp only
      split_ifs <;> simp
    | _ => simp
  · rw [if_pos hclose]
    refine iff_of_false ?_ (fun h => hclose h.1)
    dsimp only
    split_ifs <;> simp

/-! ## A turn of the loop -/

variable {s : State Character}

theorem backtrackOr_trap_iff {next : State Character → Outcome Character ⊕ State Character} :
    backtrackOr alphabet options s next = .inl .trap ↔
      ∃ t, backtrack alphabet options s = some t ∧ next t = .inl .trap := by
  unfold backtrackOr
  cases hb : backtrack alphabet options s with
  | none | some t => simp

theorem testRange_trap_iff {sc : Character} :
    testRange alphabet options pathSeparators sc s = .inl .trap ↔
      DescendingBracket alphabet options pathSeparators s.pattern := by
  rw [← rangematch_trap_iff s.pattern sc]
  unfold testRange
  generalize rangematch alphabet options pathSeparators s.pattern sc = r
  obtain ⟨status, pattern⟩ := r
  cases status with
  | noMatch =>
    refine iff_of_false ?_ (by simp)
    show backtrackOr alphabet options s .inr ≠ _
    rw [Ne, backtrackOr_trap_iff]
    rintro ⟨t, -, ht⟩
    exact absurd ht (by simp)
  | _ => simp

theorem step_trap_iff :
    step alphabet options pathSeparators s = .inl .trap ↔
      ∃ text, Opens alphabet options pathSeparators s text ∧ DescendingBracket alphabet options pathSeparators text := by
  obtain ⟨pattern, input, btPattern, btInput⟩ := s
  have hback : ∀ (t : State Character) (next : State Character → State Character),
      backtrackOr alphabet options t (fun u => .inr (next u)) ≠ .inl .trap := by
    intro t next h
    obtain ⟨u, -, hu⟩ := backtrackOr_trap_iff.mp h
    exact absurd hu (by simp)
  -- only a turn at `[` opens a bracket
  have hclosed : ∀ {s : State Character}, s.pattern.head? ≠ some (alphabet.literal '[') ∨ s.input = [] →
      ¬ ∃ text, Opens alphabet options pathSeparators s text ∧
        DescendingBracket alphabet options pathSeparators text := by
    rintro s hs ⟨text, hopens, -⟩
    cases hopens with
    | here hpattern hinput | behind hpattern hinput => rcases hs with hs | hs <;> simp [hpattern, hinput] at hs
  cases pattern with
  | nil =>
    refine iff_of_false ?_ (hclosed (.inl (by simp)))
    unfold step
    dsimp only
    split_ifs with hinput
    · simp
    · exact hback _ id
  | cons pc pattern =>
    by_cases hbracket : pc = alphabet.literal '['
    · subst hbracket
      cases input with
      | nil => exact iff_of_false (by simp [step]) (hclosed (.inr rfl))
      | cons sc input =>
        have hstep : step alphabet options pathSeparators ⟨alphabet.literal '[' :: pattern, sc :: input, btPattern, btInput⟩ =
            if sc ∈ pathSeparators ∧ options.pathname = true then
              backtrackOr alphabet options ⟨pattern, sc :: input, btPattern, btInput⟩
                (testRange alphabet options pathSeparators sc)
            else testRange alphabet options pathSeparators sc ⟨pattern, sc :: input, btPattern, btInput⟩ := by
          simp [step]
        rw [hstep]
        by_cases hsep : sc ∈ pathSeparators ∧ options.pathname = true
        · rw [if_pos hsep, backtrackOr_trap_iff]
          constructor
          · rintro ⟨t, ht, htrap⟩
            exact ⟨t.pattern, .behind rfl rfl hsep.1 hsep.2 ht, testRange_trap_iff.mp htrap⟩
          · rintro ⟨text, hopens, hdesc⟩
            cases hopens with
            | here hpattern hinput hnot =>
              cases hinput
              exact absurd hsep hnot
            | @behind pattern' sc' input' t hpattern hinput _ _ ht =>
              obtain ⟨-, rfl⟩ := List.cons.inj hpattern
              exact ⟨t, ht, testRange_trap_iff.mpr hdesc⟩
        · rw [if_neg hsep, testRange_trap_iff]
          constructor
          · intro hdesc
            exact ⟨pattern, .here rfl rfl hsep, hdesc⟩
          · rintro ⟨text, hopens, hdesc⟩
            cases hopens with
            | here hpattern hinput hnot =>
              obtain ⟨-, rfl⟩ := List.cons.inj hpattern
              exact hdesc
            | behind hpattern hinput hsc hpath =>
              cases hinput
              exact absurd ⟨hsc, hpath⟩ hsep
    · refine iff_of_false ?_ (hclosed (.inl (by simpa using hbracket)))
      unfold step
      dsimp only
      by_cases hany : pc = alphabet.literal '?'
      · rw [if_pos hany]
        cases input with
        | nil => simp
        | cons sc input =>
          dsimp only
          split_ifs
          · exact hback _ (fun u => { u with input := u.input.tail })
          · simp
      · rw [if_neg hany]
        by_cases hstar : pc = alphabet.literal '*'
        · rw [if_pos hstar]
          cases pattern.dropWhile (fun p => p = alphabet.literal '*') with
          | nil => simp
          | cons p pattern =>
            dsimp only
            split_ifs
            · cases input.dropWhile (fun c => c ∉ pathSeparators) with
              | nil | cons c input => simp
            · simp
        · rw [if_neg hstar, if_neg hbracket]
          cases input with
          | nil => simp
          | cons sc input =>
            dsimp only
            split_ifs
            · simp
            · simp
            · exact hback _ id

/-! ## A run -/

theorem loop_trap_iff (s : State Character) :
    loop alphabet options pathSeparators s = .trap ↔
      ∃ t text, Reaches alphabet options pathSeparators s t ∧ Opens alphabet options pathSeparators t text ∧
        DescendingBracket alphabet options pathSeparators text := by
  induction s using shrinks_wf.induction with
  | _ s ih =>
    have hstep : step alphabet options pathSeparators s = .inl .trap ↔
        ∃ text, Opens alphabet options pathSeparators s text ∧ DescendingBracket alphabet options pathSeparators text :=
      step_trap_iff
    cases hs : step alphabet options pathSeparators s with
    | inl outcome =>
      rw [hs, Sum.inl.injEq] at hstep
      rw [loop_of_outcome alphabet options pathSeparators hs, hstep]
      constructor
      · rintro ⟨text, hopens, hdesc⟩
        exact ⟨s, text, .refl, hopens, hdesc⟩
      · rintro ⟨t, text, hreach, hopens, hdesc⟩
        rcases hreach.cases_head with rfl | ⟨u, hu, -⟩
        · exact ⟨text, hopens, hdesc⟩
        · exact absurd (hs.symm.trans hu) (by simp)
    | inr u =>
      rw [hs] at hstep
      rw [loop_of_next alphabet options pathSeparators hs, ih u (step_shrinks alphabet options pathSeparators hs)]
      constructor
      · rintro ⟨t, text, hreach, hopens, hdesc⟩
        exact ⟨t, text, .head hs hreach, hopens, hdesc⟩
      · rintro ⟨t, text, hreach, hopens, hdesc⟩
        rcases hreach.cases_head with rfl | ⟨u', hu, hreach⟩
        · exact absurd (hstep.mpr ⟨text, hopens, hdesc⟩) (by simp)
        · cases hs.symm.trans hu
          exact ⟨t, text, hreach, hopens, hdesc⟩

/-- `fnmatch` returns or throws, unless a bracket with a range in descending order is opened. -/
theorem fnmatch_total_iff (pattern input : List Character) :
    ((∃ isMatch, fnmatch alphabet options pathSeparators pattern input = .returns isMatch) ∨
      ∃ text, fnmatch alphabet options pathSeparators pattern input = .rangeError text) ↔
      ¬ RunDescends alphabet options pathSeparators pattern input := by
  have htrap : fnmatch alphabet options pathSeparators pattern input = .trap ↔
      RunDescends alphabet options pathSeparators pattern input := loop_trap_iff _
  rw [← htrap]
  cases fnmatch alphabet options pathSeparators pattern input with
  | returns isMatch | rangeError text | trap => simp

end Ranges

/-- `[b-a]` is a runtime error as soon as there is a character to match. -/
theorem fnmatch_traps : ¬ ∀ (options : FnmatchOptions) (pattern input : List Char),
    (∃ isMatch, fnmatch Alphabet.scalars options ['/'] pattern input = .returns isMatch) ∨
      ∃ text, fnmatch Alphabet.scalars options ['/'] pattern input = .rangeError text := by
  intro h
  have htrap : fnmatch Alphabet.scalars {} ['/'] ['[', 'b', '-', 'a', ']'] ['a'] = .trap :=
    loop_of_outcome _ _ _ rfl
  rcases h {} ['[', 'b', '-', 'a', ']'] ['a'] with ⟨isMatch, hreturns⟩ | ⟨text, hthrows⟩
  · exact absurd (htrap.symm.trans hreturns) (by simp)
  · exact absurd (htrap.symm.trans hthrows) (by simp)

end Builra.Fnmatch
