import Builra.Lib.Wildcard
import Mathlib.Logic.Embedding.Basic
import Mathlib.Data.Prod.Lex

namespace Builra.Fnmatch

open List Option

/-!
# `Util.Fnmatch` — matching against shell patterns

`fnmatch` walks through the pattern and the input side by side and keeps one backtrack point, the place behind the
last `*`. A turn of its loop is `step`, on the variables that the loop changes. The characters are any ordered type,
compared as the source compares them; the characters that it writes as literals are those of an `Alphabet`.
-/

structure FnmatchOptions where
  /-- Slash must be matched by slash. -/
  pathname : Bool := false
  /-- Case insensitive search. -/
  caseInsensitive : Bool := false

/-- The characters of literals, and the lower case of a character. -/
structure Alphabet (Character : Type) where
  literal : Char ↪ Character
  lowercased : Character → Character

/-- How `rangematch` ends. A range in descending order is a runtime error. -/
inductive RangeStatus where
  | noMatch
  | match
  | error
  | trap
deriving DecidableEq, Repr

/-- How `fnmatch` ends. -/
inductive Outcome (Character : Type) where
  | returns (isMatch : Bool)
  | rangeError (pattern : List Character)
  | trap
deriving DecidableEq

/-- The variables of the loop. -/
structure State (Character : Type) where
  pattern : List Character
  input : List Character
  btPattern : Option (List Character)
  btInput : List Character
deriving DecidableEq

section

variable {Character : Type} [LinearOrder Character] (alphabet : Alphabet Character) (options : FnmatchOptions)
  (pathSeparators : List Character)

/-- The loop of `rangematch` over what the brackets list; `ok` is whether `test` was found. -/
def rangeLoop (test : Character) (ok : Bool) : List Character → RangeStatus × Bool × List Character
  | [] => (.match, ok, [])
  | c :: pattern =>
    if c = alphabet.literal ']' then (.match, ok, pattern)
    else if options.pathname ∧ c ∈ pathSeparators then (.noMatch, ok, pattern)
    else
      let c := if options.caseInsensitive then alphabet.lowercased c else c
      match pattern with
      | [] => rangeLoop test (ok || c = test) []
      | d :: subPattern =>
        if d = alphabet.literal '-' then
          match subPattern with
          -- without a second end, neither the range nor its first end is looked at
          | [] => rangeLoop test ok [d]
          | c2 :: rest =>
            if c2 = alphabet.literal ']' then (.error, ok, d :: c2 :: rest)
            else
              let c2 := if options.caseInsensitive then alphabet.lowercased c2 else c2
              if c ≤ c2 then rangeLoop test (ok || (c ≤ test ∧ test ≤ c2)) rest else (.trap, ok, rest)
        else rangeLoop test (ok || c = test) (d :: subPattern)

/-- Whether the brackets match `test`, and the pattern behind them. -/
def rangematch (pattern : List Character) (test : Character) : RangeStatus × List Character :=
  if alphabet.literal ']' ∉ pattern then
    -- unmatched '[' test as literal '['
    (if alphabet.literal '[' = test then .match else .noMatch, pattern)
  else
    let negate : Bool := pattern.head? = some (alphabet.literal '!')
    let pattern := if negate then pattern.tail else pattern
    let test := if options.caseInsensitive then alphabet.lowercased test else test
    match rangeLoop alphabet options pathSeparators test false pattern with
    | (.match, ok, pattern) => (if ok = negate then .noMatch else .match, pattern)
    | (status, _, pattern) => (status, pattern)

variable (s : State Character)

/-- Go back to the last `*` seen and have it match one additional character; nothing where there is no way back. -/
def backtrack : Option (State Character) :=
  match s.btPattern, s.btInput with
  | some pattern, sc :: rest =>
    if sc = alphabet.literal '/' ∧ options.pathname then none
    else some { s with btInput := rest, input := rest, pattern := pattern }
  | _, _ => none

/-- `if backtrack() { return false }`, and then `go on`. -/
def backtrackOr (next : State Character → Outcome Character ⊕ State Character) :
    Outcome Character ⊕ State Character :=
  match backtrack alphabet options s with
  | none => .inl (.returns false)
  | some s => next s

/-- The `switch` on what the brackets say about the character `sc`. -/
def testRange (sc : Character) (s : State Character) : Outcome Character ⊕ State Character :=
  match rangematch alphabet options pathSeparators s.pattern sc with
  | (.error, _) => .inl (.rangeError (alphabet.literal '[' :: s.pattern))
  | (.trap, _) => .inl .trap
  | (.match, pattern) => .inr { s with pattern := pattern, input := s.input.tail }
  | (.noMatch, _) => backtrackOr alphabet options s .inr

/-- One turn of the loop: an outcome, or the variables at the next turn. -/
def step : Outcome Character ⊕ State Character :=
  match s.pattern with
  | [] => if s.input = [] then .inl (.returns true) else backtrackOr alphabet options s .inr
  | pc :: pattern =>
    let s := { s with pattern := pattern }
    if pc = alphabet.literal '?' then
      match s.input with
      | [] => .inl (.returns false)
      | sc :: input =>
        if options.pathname ∧ sc ∈ pathSeparators then
          backtrackOr alphabet options s (fun s => .inr { s with input := s.input.tail })
        else .inr { s with input := input }
    else if pc = alphabet.literal '*' then
      -- consume multiple '*' in pattern
      match pattern.dropWhile (fun p => p = alphabet.literal '*') with
      | [] => .inl (.returns (!options.pathname || s.input.all (fun c => c ∉ pathSeparators)))
      | p :: pattern =>
        if p = alphabet.literal '/' ∧ options.pathname then
          -- '*/': the input must have a path separator to continue
          match s.input.dropWhile (fun c => c ∉ pathSeparators) with
          | [] => .inl (.returns false)
          | c :: input => .inr { s with pattern := p :: pattern, input := c :: input }
        else .inr { s with pattern := p :: pattern, btPattern := some (p :: pattern), btInput := s.input }
    else if pc = alphabet.literal '[' then
      match s.input with
      | [] => .inl (.returns false)
      | sc :: _ =>
        let test := testRange alphabet options pathSeparators sc
        if sc ∈ pathSeparators ∧ options.pathname then backtrackOr alphabet options s test else test s
    else
      match s.input with
      | [] => .inl (.returns false)
      | sc :: input =>
        let s := { s with input := input }
        if pc = sc ∨ (options.caseInsensitive ∧ alphabet.lowercased pc = alphabet.lowercased sc) then .inr s
        -- windows need to test for both path separators
        else if pc = alphabet.literal '/' ∧ options.pathname ∧ sc ∈ pathSeparators then .inr s
        else backtrackOr alphabet options s .inr

end

/-! ## The loop ends -/

section Termination

variable {Character : Type}

/-- The pattern that is left behind the last star, or the whole of it. -/
def scope (s : State Character) : Nat := max (s.btPattern.getD []).length s.pattern.length

/-- What every turn makes smaller: the pattern behind the last star, then the input of the backtrack point, then the
pattern. -/
def Shrinks (s' s : State Character) : Prop :=
  Prod.Lex (· < ·) (Prod.Lex (· < ·) (· < ·)) (scope s', s'.btInput.length, s'.pattern.length)
    (scope s, s.btInput.length, s.pattern.length)

theorem shrinks_wf : WellFounded (@Shrinks Character) :=
  InvImage.wf (fun s : State Character => (scope s, s.btInput.length, s.pattern.length))
    (WellFounded.prod_lex Nat.lt_wfRel.wf (WellFounded.prod_lex Nat.lt_wfRel.wf Nat.lt_wfRel.wf))

variable {s' s : State Character}

theorem shrinks_of_scope (h : scope s' < scope s) : Shrinks s' s := Prod.Lex.left _ _ h

theorem shrinks_of_btInput (hscope : scope s' ≤ scope s)
    (h : s'.btInput.length < s.btInput.length) : Shrinks s' s := by
  rcases Nat.lt_or_eq_of_le hscope with hlt | heq
  · exact shrinks_of_scope hlt
  · unfold Shrinks
    rw [heq]
    exact Prod.Lex.right _ (Prod.Lex.left _ _ h)

theorem shrinks_of_pattern (hscope : scope s' ≤ scope s) (hbt : s'.btInput = s.btInput)
    (h : s'.pattern.length < s.pattern.length) : Shrinks s' s := by
  rcases Nat.lt_or_eq_of_le hscope with hlt | heq
  · exact shrinks_of_scope hlt
  · unfold Shrinks
    rw [heq, hbt]
    exact Prod.Lex.right _ (Prod.Lex.right _ h)

variable [LinearOrder Character] (alphabet : Alphabet Character) (options : FnmatchOptions)
  (pathSeparators : List Character)

theorem rangeLoop_suffix (test : Character) (ok : Bool) (pattern : List Character) :
    (rangeLoop alphabet options pathSeparators test ok pattern).2.2 <:+ pattern := by
  fun_induction rangeLoop alphabet options pathSeparators test ok pattern with
  | case1 => exact suffix_refl _
  | case2 | case3 | case6 => exact suffix_cons _ _
  | case4 ok c _ _ _ ih | case5 ok c _ _ ih | case9 ok c _ _ _ d subPattern _ ih => exact ih.trans (suffix_cons _ _)
  | case7 ok c _ _ _ c2 rest _ _ _ ih => exact ih.trans ⟨[c, alphabet.literal '-', c2], rfl⟩
  | case8 ok c _ _ _ c2 rest => exact ⟨[c, alphabet.literal '-', c2], rfl⟩

theorem rangematch_suffix (pattern : List Character) (test : Character) :
    (rangematch alphabet options pathSeparators pattern test).2 <:+ pattern := by
  unfold rangematch
  split
  · exact suffix_refl _
  · dsimp only
    generalize hneg : decide (pattern.head? = some (alphabet.literal '!')) = negate
    generalize (if options.caseInsensitive then alphabet.lowercased test else test) = test
    have hlisted : (if negate then pattern.tail else pattern) <:+ pattern := by
      split
      · exact tail_suffix _
      · exact suffix_refl _
    generalize (if negate then pattern.tail else pattern) = listed at hlisted
    have hloop := rangeLoop_suffix alphabet options pathSeparators test false listed
    generalize rangeLoop alphabet options pathSeparators test false listed = r at hloop
    obtain ⟨status, ok, rest⟩ := r
    cases status with
    | _ => exact hloop.trans hlisted

theorem backtrack_eq_some {s s' : State Character} (h : backtrack alphabet options s = some s') :
    ∃ pattern sc rest, s.btPattern = some pattern ∧ s.btInput = sc :: rest ∧
      ¬ (sc = alphabet.literal '/' ∧ options.pathname) ∧ s' = ⟨pattern, rest, some pattern, rest⟩ := by
  obtain ⟨pattern, input, btPattern, btInput⟩ := s
  unfold backtrack at h
  cases btPattern with
  | none => exact absurd h (some_ne_none _).symm
  | some p =>
    cases btInput with
    | nil => exact absurd h (some_ne_none _).symm
    | cons sc rest =>
      dsimp only at h
      split_ifs at h with hsep
      exact ⟨p, sc, rest, rfl, rfl, hsep, (Option.some.inj h).symm⟩

/-- The loop has gone back, and perhaps on from there. -/
def WentBack (s s' : State Character) : Prop :=
  ∃ p, s.btPattern = some p ∧ s'.btPattern = some p ∧ s'.pattern <:+ p ∧ s'.btInput.length < s.btInput.length

/-- The backtrack point has stayed where it was. -/
def WentOn (s s' : State Character) : Prop :=
  s'.pattern <:+ s.pattern ∧ s'.btPattern = s.btPattern ∧ s'.btInput = s.btInput

theorem backtrackOr_wentBack {s s' : State Character} {next : State Character → Outcome Character ⊕ State Character}
    (hnext : ∀ t t', next t = .inr t' → WentOn t t' ∨ WentBack t t')
    (h : backtrackOr alphabet options s next = .inr s') : WentBack s s' := by
  unfold backtrackOr at h
  cases hb : backtrack alphabet options s with
  | none =>
    rw [hb] at h
    exact absurd h (by simp)
  | some t =>
    rw [hb] at h
    obtain ⟨p, sc, rest, hp, hinput, -, rfl⟩ := backtrack_eq_some alphabet options hb
    have hless : rest.length < s.btInput.length := by
      rw [hinput]
      exact Nat.lt_succ_self _
    rcases hnext _ _ h with ⟨hpattern, hbt, hbtInput⟩ | ⟨p', hp', hbt, hpattern, hlt⟩
    · exact ⟨p, hp, hbt, hpattern, by rwa [hbtInput]⟩
    · obtain rfl := Option.some.inj hp'
      exact ⟨p, hp, hbt, hpattern, hlt.trans hless⟩

omit [LinearOrder Character] in
theorem wentOn_of_eq {s s' : State Character} (f : State Character → State Character)
    (hf : ∀ t, WentOn t (f t)) (h : (Sum.inr (f s) : Outcome Character ⊕ State Character) = .inr s') :
    WentOn s s' ∨ WentBack s s' := by
  obtain rfl := Sum.inr.inj h
  exact .inl (hf s)

omit [LinearOrder Character] in
theorem wentOn_id (s : State Character) : WentOn s (id s) := ⟨suffix_refl _, rfl, rfl⟩

variable {s s' : State Character}

theorem testRange_went {sc : Character}
    (h : testRange alphabet options pathSeparators sc s = .inr s') : WentOn s s' ∨ WentBack s s' := by
  have hsuffix := rangematch_suffix alphabet options pathSeparators s.pattern sc
  unfold testRange at h
  generalize rangematch alphabet options pathSeparators s.pattern sc = r at h hsuffix
  obtain ⟨status, pattern⟩ := r
  cases status with
  | error | trap => exact absurd h (by simp)
  | «match» =>
    obtain rfl := Sum.inr.inj h
    exact .inl ⟨hsuffix, rfl, rfl⟩
  | noMatch => exact .inr (backtrackOr_wentBack alphabet options (fun _ _ => wentOn_of_eq id wentOn_id) h)

section

variable (h : step alphabet options pathSeparators s = .inr s')
include h

/-- What a turn does to the pattern and the backtrack point. -/
theorem step_cases :
    WentBack s s' ∨ ∃ pc rest, s.pattern = pc :: rest ∧ s'.pattern <:+ rest ∧
      (s'.btPattern = s.btPattern ∧ s'.btInput = s.btInput ∨ s'.btPattern = some s'.pattern) := by
  obtain ⟨pattern, input, btPattern, btInput⟩ := s
  unfold step at h
  cases pattern with
  | nil =>
    dsimp only at h
    split_ifs at h
    exact .inl (backtrackOr_wentBack alphabet options (fun _ _ => wentOn_of_eq id wentOn_id) h)
  | cons pc pattern =>
    dsimp only at h
    split_ifs at h with hany hstar hbracket
    · -- '?'
      cases input with
      | nil => exact absurd h (by simp)
      | cons sc input =>
        dsimp only at h
        split_ifs at h
        · exact .inl (backtrackOr_wentBack alphabet options
            (fun _ _ => wentOn_of_eq (fun t => { t with input := t.input.tail }) wentOn_id) h)
        · obtain rfl := Sum.inr.inj h
          exact .inr ⟨pc, pattern, rfl, suffix_refl _, .inl ⟨rfl, rfl⟩⟩
    · -- '*'
      have hbehind : pattern.dropWhile (fun p => p = alphabet.literal '*') <:+ pattern := dropWhile_suffix _
      generalize pattern.dropWhile (fun p => p = alphabet.literal '*') = behind at h hbehind
      cases behind with
      | nil => exact absurd h (by simp)
      | cons p behind =>
        dsimp only at h
        split_ifs at h
        · generalize input.dropWhile (fun c => c ∉ pathSeparators) = rest at h
          cases rest with
          | nil => exact absurd h (by simp)
          | cons c rest =>
            obtain rfl := Sum.inr.inj h
            exact .inr ⟨pc, pattern, rfl, hbehind, .inl ⟨rfl, rfl⟩⟩
        · obtain rfl := Sum.inr.inj h
          exact .inr ⟨pc, pattern, rfl, hbehind, .inr rfl⟩
    · -- '['
      cases input with
      | nil => exact absurd h (by simp)
      | cons sc input =>
        dsimp only at h
        split_ifs at h
        · exact .inl (backtrackOr_wentBack alphabet options
            (fun _ _ => testRange_went alphabet options pathSeparators) h)
        · rcases testRange_went alphabet options pathSeparators h with ⟨hpattern, hbt⟩ | hback
          · exact .inr ⟨pc, pattern, rfl, hpattern, .inl hbt⟩
          · exact .inl hback
    · -- any other character
      cases input with
      | nil => exact absurd h (by simp)
      | cons sc input =>
        dsimp only at h
        split_ifs at h
        · obtain rfl := Sum.inr.inj h
          exact .inr ⟨pc, pattern, rfl, suffix_refl _, .inl ⟨rfl, rfl⟩⟩
        · obtain rfl := Sum.inr.inj h
          exact .inr ⟨pc, pattern, rfl, suffix_refl _, .inl ⟨rfl, rfl⟩⟩
        · exact .inl (backtrackOr_wentBack alphabet options (fun _ _ => wentOn_of_eq id wentOn_id) h)

/-- Every turn makes what is left smaller. -/
theorem step_shrinks :
    Shrinks s' s := by
  rcases step_cases alphabet options pathSeparators h with
    ⟨p, hp, hbt, hpattern, hless⟩ | ⟨pc, rest, hrest, hpattern, ⟨hbt, hbtInput⟩ | hbt⟩
  · refine shrinks_of_btInput ?_ hless
    have := hpattern.length_le
    simp only [scope, hp, hbt, getD_some]
    omega
  · have := hpattern.length_le
    refine shrinks_of_pattern ?_ hbtInput ?_
    · simp only [scope, hbt, hrest, length_cons]
      omega
    · rw [hrest, length_cons]
      omega
  · apply shrinks_of_scope
    have := hpattern.length_le
    simp only [scope, hbt, hrest, getD_some, length_cons]
    omega

end

/-- The loop. -/
def loop (s : State Character) : Outcome Character :=
  match _h : step alphabet options pathSeparators s with
  | .inl outcome => outcome
  | .inr s' => loop s'
termination_by shrinks_wf.wrap s
decreasing_by exact step_shrinks alphabet options pathSeparators _h

/-- Match the whole input against the whole pattern. -/
def fnmatch (pattern input : List Character) : Outcome Character :=
  loop alphabet options pathSeparators ⟨pattern, input, none, input⟩

theorem loop_of_outcome {s : State Character} {outcome : Outcome Character}
    (h : step alphabet options pathSeparators s = .inl outcome) :
    loop alphabet options pathSeparators s = outcome := by
  unfold loop
  split
  · rename_i heq
    exact Sum.inl.inj (heq.symm.trans h)
  · rename_i heq
    exact absurd (heq.symm.trans h) (by simp)

theorem loop_of_next (h : step alphabet options pathSeparators s = .inr s') :
    loop alphabet options pathSeparators s = loop alphabet options pathSeparators s' := by
  conv_lhs => unfold loop
  split
  · rename_i heq
    exact absurd (heq.symm.trans h) (by simp)
  · rename_i heq
    rw [Sum.inr.inj (heq.symm.trans h)]

end Termination

end Builra.Fnmatch
