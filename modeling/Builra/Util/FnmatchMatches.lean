import Builra.Util.Fnmatch
import Mathlib.Data.Char
import Mathlib.Data.List.TakeWhile

namespace Builra.Fnmatch

open List
open Bool hiding and_true

/-!
# `Util.FnmatchMatches` — what `fnmatch` matches

Patterns are given their usual meaning: a pattern is read as a sequence of pieces (`Reads`), and the input has to be
cut into parts that the pieces match (`Globs`). The loop of `fnmatch` is a matcher with one backtrack point, so that
every turn keeps `Attempt`, except where a `?` or a bracket meets a separator under the `pathname` option and the loop
goes on after having backtracked (`Crosses`).
-/

open Wildcard

/-! ## The meaning of a pattern -/

/-- The parts of a pattern. A bracket lists ranges; a single character is a range of one. -/
inductive Piece (Character : Type) where
  | anySequence
  | anyCharacter
  | bracket (negate : Bool) (listed : List (Character × Character))
  | character (c : Character)

section

variable {Character : Type} [LinearOrder Character]

/-- The character is in one of the ranges. -/
def Listed (listed : List (Character × Character)) (c : Character) : Prop := ∃ r ∈ listed, r.1 ≤ c ∧ c ≤ r.2

instance (listed : List (Character × Character)) (c : Character) : Decidable (Listed listed c) :=
  inferInstanceAs (Decidable (∃ r ∈ listed, r.1 ≤ c ∧ c ≤ r.2))

theorem listed_cons {r : Character × Character} {listed : List (Character × Character)} {c : Character} :
    Listed (r :: listed) c ↔ (r.1 ≤ c ∧ c ≤ r.2) ∨ Listed listed c := by
  unfold Listed
  rw [exists_mem_cons_iff]

def Piece.item : Piece Character → Item Character
  | .anySequence => .star
  | .anyCharacter => .one (fun _ => True)
  | .bracket negate listed => .one (fun c => decide (Listed listed c) ≠ negate)
  | .character c => .one (fun sc => sc = c)

/-- The input matches the pieces. -/
def Globs (pieces : List (Piece Character)) (input : List Character) : Prop :=
  Matches (fun _ => True) (pieces.map Piece.item) input

variable (alphabet : Alphabet Character)

/-- What a bracket lists, from behind `[` or `[!` to behind the closing `]`: characters, and ranges in ascending
order. The first `]` closes, so that `[]` lists nothing, where POSIX lists a `]` that comes first. -/
inductive Lists : List Character → List (Character × Character) → List Character → Prop where
  | close (rest) : Lists (alphabet.literal ']' :: rest) [] rest
  | range {first last} {text listed rest} : first ≠ alphabet.literal ']' → last ≠ alphabet.literal ']' →
      first ≤ last → Lists text listed rest →
      Lists (first :: alphabet.literal '-' :: last :: text) ((first, last) :: listed) rest
  | single {c} {text listed rest} : c ≠ alphabet.literal ']' → text.head? ≠ some (alphabet.literal '-') →
      Lists text listed rest → Lists (c :: text) ((c, c) :: listed) rest

/-- A pattern whose brackets are well formed, and its pieces. -/
inductive Reads : List Character → List (Piece Character) → Prop where
  | nil : Reads [] []
  | anySequence {text pieces} : Reads text pieces → Reads (alphabet.literal '*' :: text) (.anySequence :: pieces)
  | anyCharacter {text pieces} : Reads text pieces → Reads (alphabet.literal '?' :: text) (.anyCharacter :: pieces)
  | bracket {text listed rest pieces} : text.head? ≠ some (alphabet.literal '!') → Lists alphabet text listed rest →
      Reads rest pieces → Reads (alphabet.literal '[' :: text) (.bracket false listed :: pieces)
  | negated {text listed rest pieces} : Lists alphabet text listed rest → Reads rest pieces →
      Reads (alphabet.literal '[' :: alphabet.literal '!' :: text) (.bracket true listed :: pieces)
  | character {c text pieces} : c ≠ alphabet.literal '*' → c ≠ alphabet.literal '?' → c ≠ alphabet.literal '[' →
      Reads text pieces → Reads (c :: text) (.character c :: pieces)

/-! ## A bracket -/

variable {alphabet}

variable {listed : List (Character × Character)}

variable {text rest : List Character}

section

variable (h : Lists alphabet text listed rest)
include h

theorem Lists.close_mem
    : alphabet.literal ']' ∈ text := by
  induction h with
  | close rest => exact mem_cons_self
  | range _ _ _ _ ih => exact mem_cons_of_mem _ (mem_cons_of_mem _ (mem_cons_of_mem _ ih))
  | single _ _ _ ih => exact mem_cons_of_mem _ ih

theorem Lists.ne_nil
    : text ≠ [] := ne_nil_of_mem h.close_mem

/-- Text behind a bracket is not looked at. -/
theorem Lists.append
    (more : List Character) :
    Lists alphabet (text ++ more) listed (rest ++ more) := by
  induction h with
  | close rest => exact .close _
  | range hfirst hlast hle _ ih => exact .range hfirst hlast hle ih
  | single hc hhead h ih =>
    refine .single hc ?_ ih
    show (_ ++ more).head? ≠ _
    rwa [head?_append_of_ne_nil _ h.ne_nil]

end

variable {options : FnmatchOptions} {pathSeparators : List Character}

section

variable (hcase : options.caseInsensitive = false)
include hcase

variable {listed : List (Character × Character)}

variable {text rest : List Character}

section

variable (h : Lists alphabet text listed rest)
include h

section

variable (hsep : ∀ r ∈ listed, ¬ (options.pathname = true ∧ r.1 ∈ pathSeparators))
include hsep

/-- The loop over what is listed finds `test` in one of the ranges. -/
theorem rangeLoop_lists
    (test : Character) (ok : Bool) :
    rangeLoop alphabet options pathSeparators test ok text = (.match, ok || decide (Listed listed test), rest) := by
  induction h generalizing ok with
  | close rest => simp [rangeLoop, Listed]
  | @range first last text listed rest hfirst hlast hle _ ih =>
    have hsep' := hsep (first, last) mem_cons_self
    have hrest := ih (fun r hr => hsep r (mem_cons_of_mem _ hr))
    rw [rangeLoop, if_neg hfirst, if_neg hsep']
    simp only [hcase, false_eq_true, if_false, if_true, if_neg hlast, if_pos hle]
    rw [hrest]
    simp only [listed_cons, Bool.decide_or, Bool.or_assoc]
  | @single c text listed rest hc hhead htext ih =>
    have hsep' := hsep (c, c) mem_cons_self
    have hrest := ih (fun r hr => hsep r (mem_cons_of_mem _ hr))
    obtain ⟨d, text, rfl⟩ := exists_cons_of_ne_nil htext.ne_nil
    have hd : d ≠ alphabet.literal '-' := fun h => hhead (congrArg some h)
    have hiff : c = test ↔ c ≤ test ∧ test ≤ c := antisymm_iff.symm
    rw [rangeLoop, if_neg hc, if_neg hsep']
    simp only [hcase, false_eq_true, if_false, if_neg hd]
    rw [hrest]
    simp only [listed_cons, Bool.decide_or, Bool.or_assoc, hiff]

theorem rangematch_lists
    (test : Character)
    (hhead : text.head? ≠ some (alphabet.literal '!')) :
    rangematch alphabet options pathSeparators text test =
      (if Listed listed test then .match else .noMatch, rest) := by
  unfold rangematch
  rw [if_neg (not_not_intro h.close_mem)]
  simp only [hhead, decide_false, false_eq_true, if_false, hcase]
  rw [rangeLoop_lists hcase h hsep]
  by_cases hl : Listed listed test
  · simp [hl]
  · simp [hl]

theorem rangematch_negated
    (test : Character) :
    rangematch alphabet options pathSeparators (alphabet.literal '!' :: text) test =
      (if Listed listed test then .noMatch else .match, rest) := by
  unfold rangematch
  rw [if_neg (not_not_intro (mem_cons_of_mem _ h.close_mem))]
  simp only [head?_cons, decide_true, if_true, tail_cons, hcase, false_eq_true, if_false]
  rw [rangeLoop_lists hcase h hsep]
  by_cases hl : Listed listed test
  · simp [hl]
  · simp [hl]

end

end

end

/-! ## The loop as a matcher -/

variable (alphabet) in
/-- What is left of a pattern, and the items that match within `S`: everything but single characters is kept within
`S`. -/
inductive Meaning (S : Character → Prop) : List Character → List (Item Character) → Prop where
  | nil : Meaning S [] []
  | anySequence {text items} : Meaning S text items → Meaning S (alphabet.literal '*' :: text) (.star :: items)
  | anyCharacter {text items} : Meaning S text items → Meaning S (alphabet.literal '?' :: text) (.one S :: items)
  | bracket {text listed rest items} : text.head? ≠ some (alphabet.literal '!') → Lists alphabet text listed rest →
      (∀ r ∈ listed, S r.1) → Meaning S rest items →
      Meaning S (alphabet.literal '[' :: text) (.one (fun c => S c ∧ Listed listed c) :: items)
  | negated {text listed rest items} : Lists alphabet text listed rest → (∀ r ∈ listed, S r.1) →
      Meaning S rest items →
      Meaning S (alphabet.literal '[' :: alphabet.literal '!' :: text)
        (.one (fun c => S c ∧ ¬ Listed listed c) :: items)
  | character {c text items} : c ≠ alphabet.literal '*' → c ≠ alphabet.literal '?' → c ≠ alphabet.literal '[' →
      Meaning S text items → Meaning S (c :: text) (.one (fun sc => sc = c) :: items)

variable (alphabet options) in
/-- The characters that wildcards and brackets may match. -/
def Within (c : Character) : Prop := ¬ (c = alphabet.literal '/' ∧ options.pathname = true)

variable (alphabet options) in
/-- The backtrack point of the loop is the place behind the last star. -/
def BtMeans (s : State Character) (bt : Option (List (Item Character) × List Character)) : Prop :=
  match s.btPattern with
  | none => bt = none
  | some pattern => ∃ q, Meaning alphabet (Within alphabet options) pattern q ∧ bt = some (q, s.btInput)

variable (alphabet options) in
/-- The loop stands where a matcher stands that is after `answer`. -/
def Follows (answer : Prop) (s : State Character) : Prop :=
  ∃ items bt, Meaning alphabet (Within alphabet options) s.pattern items ∧
    Attempt (Within alphabet options) answer items s.input bt ∧ BtMeans alphabet options s bt

variable (alphabet options) in
/-- A turn gives the answer, or goes on after it. -/
def Answers (answer : Prop) (r : Outcome Character ⊕ State Character) : Prop :=
  match r with
  | .inl (.returns isMatch) => isMatch = true ↔ answer
  | .inl _ => False
  | .inr s => Follows alphabet options answer s

variable (alphabet options pathSeparators) in
/-- A `?` or a bracket meets a separator, and there is a place to go back to. -/
def Crosses (s : State Character) : Prop :=
  ∃ pc pattern sc input, s.pattern = pc :: pattern ∧ s.input = sc :: input ∧
    (pc = alphabet.literal '?' ∨ pc = alphabet.literal '[') ∧ options.pathname = true ∧ sc ∈ pathSeparators ∧
    backtrack alphabet options { s with pattern := pattern } ≠ none

section Backtrack

variable {answer : Prop} {s : State Character} {items : List (Item Character)} {input : List Character}
  {bt : Option (List (Item Character) × List Character)}

section

variable (h : Attempt (Within alphabet options) answer items input bt)
include h

theorem not_answer_of_backtrack
    (hbt : BtMeans alphabet options s bt) (hm : ¬ Matches (Within alphabet options) items input)
    (hnone : backtrack alphabet options s = none) : ¬ answer := by
  refine h.not_of_no_backtrack hm ?_
  rintro bq c bl rfl
  obtain ⟨pattern, sinput, btPattern, btInput⟩ := s
  cases btPattern with
  | none => exact absurd hbt (Option.some_ne_none _)
  | some pattern =>
    obtain ⟨q, -, heq⟩ := hbt
    obtain ⟨-, rfl⟩ := Prod.mk.inj (Option.some.inj heq)
    unfold backtrack at hnone
    dsimp only at hnone
    split_ifs at hnone with hsep
    exact not_not_intro hsep

/-- Where an attempt fails, backtracking gives the answer or goes on after it. -/
theorem backtrackOr_answers
    (hbt : BtMeans alphabet options s bt) (hm : ¬ Matches (Within alphabet options) items input) :
    Answers alphabet options answer (backtrackOr alphabet options s .inr) := by
  unfold backtrackOr
  cases hb : backtrack alphabet options s with
  | none => exact iff_of_false false_ne_true (not_answer_of_backtrack h hbt hm hb)
  | some t =>
    obtain ⟨pattern, sc, rest, hp, hinput, hsep, rfl⟩ := backtrack_eq_some alphabet options hb
    unfold BtMeans at hbt
    rw [hp] at hbt
    obtain ⟨q, hq, rfl⟩ := hbt
    rw [hinput] at h
    exact ⟨q, some (q, rest), hq, h.backtrack hm hsep, q, hq, rfl⟩

end

end Backtrack

/-- Behind a star, the stars that follow it are passed over. -/
theorem meaning_stars {S : Character → Prop} {pattern : List Character} {items : List (Item Character)}
    (h : Meaning alphabet S pattern items) :
    ∃ items', Meaning alphabet S (pattern.dropWhile (fun p => p = alphabet.literal '*')) items' ∧
      ∀ answer l bt, Attempt S answer (.star :: items) l bt → Attempt S answer (.star :: items') l bt := by
  induction h with
  | nil => exact ⟨[], .nil, fun _ _ _ ha => ha⟩
  | @anySequence text items _ ih =>
    obtain ⟨items', hm, hstar⟩ := ih
    refine ⟨items', ?_, fun answer l bt ha => hstar answer l bt ha.star_star⟩
    rw [dropWhile_cons_of_pos (by simp)]
    exact hm
  | @anyCharacter text items h _ =>
    refine ⟨_, ?_, fun _ _ _ ha => ha⟩
    rw [dropWhile_cons_of_neg (by simp)]
    exact .anyCharacter h
  | bracket hhead hl hS h _ =>
    refine ⟨_, ?_, fun _ _ _ ha => ha⟩
    rw [dropWhile_cons_of_neg (by simp)]
    exact .bracket hhead hl hS h
  | negated hl hS h _ =>
    refine ⟨_, ?_, fun _ _ _ ha => ha⟩
    rw [dropWhile_cons_of_neg (by simp)]
    exact .negated hl hS h
  | character hstar hany hopen h _ =>
    refine ⟨_, ?_, fun _ _ _ ha => ha⟩
    rw [dropWhile_cons_of_neg (by simpa using hstar)]
    exact .character hstar hany hopen h

section Step

variable {answer : Prop} {accepts : Character → Prop} {items : List (Item Character)}
  {pattern rest input btInput : List Character} {btPattern : Option (List Character)} {sc : Character}
  {bt : Option (List (Item Character) × List Character)}

/-- A turn that finds a wildcard or a bracket at a character that it may match. -/
theorem testRange_answers {p : Prop} [Decidable p]
    (hr : rangematch alphabet options pathSeparators pattern sc = (if p then .match else .noMatch, rest))
    (hacc : accepts sc ↔ p) (hin : Inner (Within alphabet options) accepts)
    (hmeaning : Meaning alphabet (Within alphabet options) rest items)
    (h : Attempt (Within alphabet options) answer (.one accepts :: items) (sc :: input) bt)
    (hbt : BtMeans alphabet options ⟨pattern, sc :: input, btPattern, btInput⟩ bt) :
    Answers alphabet options answer
      (testRange alphabet options pathSeparators sc ⟨pattern, sc :: input, btPattern, btInput⟩) := by
  unfold testRange
  rw [hr]
  by_cases hp : p
  · rw [if_pos hp]
    exact ⟨items, bt, hmeaning, h.pass_inner hin (hacc.mpr hp), hbt⟩
  · rw [if_neg hp]
    exact backtrackOr_answers h hbt (fun hm => hp (hacc.mp (matches_one_cons.mp hm).1))

variable {s : State Character}

/-- A turn that finds one at a separator, with no place to go back to. -/
theorem backtrackOr_separator {next : State Character → Outcome Character ⊕ State Character}
    (hin : Inner (Within alphabet options) accepts)
    (h : Attempt (Within alphabet options) answer (.one accepts :: items) (sc :: input) bt)
    (hsc : ¬ Within alphabet options sc) (hnone : backtrack alphabet options s = none) :
    Answers alphabet options answer (backtrackOr alphabet options s next) := by
  unfold backtrackOr
  rw [hnone]
  refine iff_of_false false_ne_true (h.not_of_inner hin ?_)
  intro d hd
  cases hd
  exact hsc

/-- A bracket, from behind its `[`. -/
theorem step_bracket {p : Prop} [Decidable p]
    (hr : rangematch alphabet options pathSeparators pattern sc = (if p then .match else .noMatch, rest))
    (hacc : accepts sc ↔ Within alphabet options sc ∧ p) (hin : Inner (Within alphabet options) accepts)
    (hsep : options.pathname = true → ∀ c, c ∈ pathSeparators ↔ c = alphabet.literal '/')
    (hmeaning : Meaning alphabet (Within alphabet options) rest items)
    (h : Attempt (Within alphabet options) answer (.one accepts :: items) (sc :: input) bt)
    (hbt : BtMeans alphabet options ⟨pattern, sc :: input, btPattern, btInput⟩ bt)
    (hcross : ¬ Crosses alphabet options pathSeparators
      ⟨alphabet.literal '[' :: pattern, sc :: input, btPattern, btInput⟩) :
    Answers alphabet options answer (step alphabet options pathSeparators
      ⟨alphabet.literal '[' :: pattern, sc :: input, btPattern, btInput⟩) := by
  unfold step
  dsimp only
  rw [if_neg (by simp), if_neg (by simp), if_pos rfl]
  by_cases hsc : sc ∈ pathSeparators ∧ options.pathname = true
  · rw [if_pos hsc]
    refine backtrackOr_separator hin h (not_not_intro ⟨(hsep hsc.2 sc).mp hsc.1, hsc.2⟩) ?_
    by_contra hb
    exact hcross ⟨_, pattern, sc, input, rfl, rfl, .inr rfl, hsc.2, hsc.1, hb⟩
  · rw [if_neg hsc]
    have hwithin : Within alphabet options sc := fun hw => hsc ⟨(hsep hw.2 sc).mpr hw.1, hw.2⟩
    exact testRange_answers hr (hacc.trans (and_iff_right hwithin)) hin hmeaning h hbt

section

variable (hsep : options.pathname = true → ∀ c, c ∈ pathSeparators ↔ c = alphabet.literal '/')
include hsep

omit [LinearOrder Character] in
theorem within_iff
    (hpath : options.pathname = true) {c : Character} : Within alphabet options c ↔ c ∉ pathSeparators := by
  unfold Within
  rw [hsep hpath c]
  exact not_congr (and_iff_left hpath)

/-- `*` at the end of the pattern. -/
theorem star_end_iff :
    (!options.pathname || input.all (fun c => c ∉ pathSeparators)) = true ↔
      ∀ d ∈ input, Within alphabet options d := by
  by_cases hpath : options.pathname = true
  · simp only [hpath, Bool.not_true, Bool.false_or, all_eq_true, decide_eq_true_eq, within_iff hsep hpath]
  · refine iff_of_true (by simp [hpath]) ?_
    intro d _ hd
    exact hpath hd.2

end

/-- `*/` in the pattern. -/
theorem jump_answers {q : List (Item Character)} {c : Character}
    (hsep : options.pathname = true → ∀ c, c ∈ pathSeparators ↔ c = alphabet.literal '/')
    (hslash : c = alphabet.literal '/' ∧ options.pathname = true) (hbt : BtMeans alphabet options s bt)
    (hmeaning : Meaning alphabet (Within alphabet options) (c :: pattern) (.one (fun sc => sc = c) :: q))
    (h : Attempt (Within alphabet options) answer (.star :: .one (fun sc => sc = c) :: q) input bt) :
    Answers alphabet options answer
      (match input.dropWhile (fun c => c ∉ pathSeparators) with
      | [] => .inl (.returns false)
      | d :: input => .inr { s with pattern := c :: pattern, input := d :: input }) := by
  have hout : Outer (Within alphabet options) (fun sc => sc = c) := fun sc hsc => not_not_intro (hsc ▸ hslash)
  have hpassed : ∀ d ∈ input.takeWhile (fun c => c ∉ pathSeparators), Within alphabet options d := by
    intro d hd
    have hnot := mem_takeWhile_imp hd
    exact (within_iff hsep hslash.2).mpr (of_decide_eq_true hnot)
  have hcut : input.takeWhile (fun c => c ∉ pathSeparators) ++ input.dropWhile (fun c => c ∉ pathSeparators) = input :=
    takeWhile_append_dropWhile
  cases hrest : input.dropWhile (fun c => c ∉ pathSeparators) with
  | nil =>
    rw [hrest, append_nil] at hcut
    rw [hcut] at hpassed
    exact iff_of_false false_ne_true (h.not_of_jump hout hpassed)
  | cons d rest =>
    rw [hrest] at hcut
    have hd : ¬ Within alphabet options d := by
      have hne : input.dropWhile (fun c => c ∉ pathSeparators) ≠ [] := by
        rw [hrest]
        exact cons_ne_nil d rest
      have hhead := head_dropWhile_not (fun c => decide (c ∉ pathSeparators)) hne
      simp only [hrest, head_cons, decide_eq_false_iff_not] at hhead
      rwa [within_iff hsep hslash.2]
    rw [← hcut] at h
    exact ⟨_, bt, hmeaning, h.jump hout hpassed hd, hbt⟩

/-- Every turn that does not go on behind a separator keeps to the answer. -/
theorem step_answers (hcase : options.caseInsensitive = false)
    (hsep : options.pathname = true → ∀ c, c ∈ pathSeparators ↔ c = alphabet.literal '/')
    (h : Follows alphabet options answer s) (hcross : ¬ Crosses alphabet options pathSeparators s) :
    Answers alphabet options answer (step alphabet options pathSeparators s) := by
  obtain ⟨items, bt, hmeaning, hattempt, hbt⟩ := h
  obtain ⟨pattern, input, btPattern, btInput⟩ := s
  have hseps : ∀ {listed : List (Character × Character)}, (∀ r ∈ listed, Within alphabet options r.1) →
      ∀ r ∈ listed, ¬ (options.pathname = true ∧ r.1 ∈ pathSeparators) :=
    fun hl r hr hp => hl r hr ⟨(hsep hp.1 r.1).mp hp.2, hp.1⟩
  dsimp only at hmeaning hattempt
  cases hmeaning with
  | nil =>
    unfold step
    dsimp only
    split_ifs with hinput
    · rw [hinput] at hattempt
      exact iff_of_true rfl hattempt.done
    · exact backtrackOr_answers hattempt hbt hinput
  | @anySequence text items htext =>
    obtain ⟨items', hdropped, hstars⟩ := meaning_stars htext
    have hstar := hstars _ _ _ hattempt
    unfold step
    dsimp only
    rw [if_neg (by simp), if_pos rfl]
    generalize text.dropWhile (fun p => p = alphabet.literal '*') = behind at hdropped
    cases behind with
    | nil =>
      cases hdropped
      exact (star_end_iff hsep).trans hstar.star_end.symm
    | cons p behind =>
      dsimp only
      by_cases hslash : p = alphabet.literal '/' ∧ options.pathname = true
      · rw [if_pos hslash]
        cases hdropped with
        | character hpstar hpany hpopen hbehind =>
          exact jump_answers hsep hslash hbt (.character hpstar hpany hpopen hbehind) hstar
        | _ => exact absurd hslash.1 (by simp)
      · rw [if_neg hslash]
        exact ⟨items', _, hdropped, hstar.star, items', hdropped, rfl⟩
  | @anyCharacter text items htext =>
    unfold step
    dsimp only
    rw [if_pos rfl]
    cases input with
    | nil => exact iff_of_false false_ne_true hattempt.not_of_nil
    | cons sc input =>
      dsimp only
      by_cases hsc : options.pathname = true ∧ sc ∈ pathSeparators
      · rw [if_pos hsc]
        refine backtrackOr_separator (fun _ hc => hc) hattempt (not_not_intro ⟨(hsep hsc.1 sc).mp hsc.2, hsc.1⟩) ?_
        by_contra hb
        exact hcross ⟨_, text, sc, input, rfl, rfl, .inl rfl, hsc.1, hsc.2, hb⟩
      · rw [if_neg hsc]
        have hwithin : Within alphabet options sc := fun hw => hsc ⟨hw.2, (hsep hw.2 sc).mpr hw.1⟩
        exact ⟨items, bt, htext, hattempt.pass_inner (fun _ hc => hc) hwithin, hbt⟩
  | @bracket text listed rest items hhead hl hS hrest =>
    cases input with
    | nil =>
      unfold step
      dsimp only
      rw [if_neg (by simp), if_neg (by simp), if_pos rfl]
      exact iff_of_false false_ne_true hattempt.not_of_nil
    | cons sc input =>
      exact step_bracket (rangematch_lists hcase hl (hseps hS) sc hhead) Iff.rfl (fun _ hc => hc.1) hsep hrest hattempt
        hbt hcross
  | @negated text listed rest items hl hS hrest =>
    cases input with
    | nil =>
      unfold step
      dsimp only
      rw [if_neg (by simp), if_neg (by simp), if_pos rfl]
      exact iff_of_false false_ne_true hattempt.not_of_nil
    | cons sc input =>
      have hr := rangematch_negated hcase hl (hseps hS) sc
      rw [← ite_not] at hr
      exact step_bracket hr Iff.rfl (fun _ hc => hc.1) hsep hrest hattempt hbt hcross
  | @character c text items hstar hany hopen htext =>
    unfold step
    dsimp only
    rw [if_neg hany, if_neg hstar, if_neg hopen]
    cases input with
    | nil => exact iff_of_false false_ne_true hattempt.not_of_nil
    | cons sc input =>
      dsimp only
      by_cases hc : c = sc
      · rw [if_pos (.inl hc)]
        subst hc
        refine ⟨items, bt, htext, ?_, hbt⟩
        by_cases hw : Within alphabet options c
        · exact hattempt.pass_inner (fun _ hd => hd ▸ hw) rfl
        · exact hattempt.pass_outer (fun _ hd => hd ▸ hw) rfl
      · have hfirst : ¬ (c = sc ∨ options.caseInsensitive = true ∧ alphabet.lowercased c = alphabet.lowercased sc) := by
          rintro (h | h)
          · exact hc h
          · rw [hcase] at h
            exact false_ne_true h.1
        have hsecond : ¬ (c = alphabet.literal '/' ∧ options.pathname = true ∧ sc ∈ pathSeparators) := by
          rintro ⟨rfl, hp, hm⟩
          exact hc ((hsep hp sc).mp hm).symm
        rw [if_neg hfirst, if_neg hsecond]
        exact backtrackOr_answers hattempt hbt (fun hm => hc (matches_one_cons.mp hm).1.symm)

end Step

/-! ## Runs of the loop -/

section Run

variable {answer : Prop} {s : State Character}

/-- Where the loop goes on behind a separator, the answer is no. -/
theorem not_answer_of_crosses
    (hsep : options.pathname = true → ∀ c, c ∈ pathSeparators ↔ c = alphabet.literal '/')
    (h : Follows alphabet options answer s) (hcross : Crosses alphabet options pathSeparators s) : ¬ answer := by
  obtain ⟨pc, pattern, sc, input, hpattern, hinput, hpc, hpath, hsc, -⟩ := hcross
  obtain ⟨items, bt, hmeaning, hattempt, -⟩ := h
  rw [hpattern] at hmeaning
  rw [hinput] at hattempt
  have hhead : ∀ d, (sc :: input).head? = some d → ¬ Within alphabet options d := by
    intro d hd
    cases hd
    exact not_not_intro ⟨(hsep hpath sc).mp hsc, hpath⟩
  cases hmeaning with
  | anySequence h => exact absurd hpc (by simp)
  | anyCharacter h => exact hattempt.not_of_inner (fun _ hc => hc) hhead
  | bracket hnegate hl hS h | negated hl hS h => exact hattempt.not_of_inner (fun _ hc => hc.1) hhead
  | character hstar hany hopen h => exact absurd hpc (not_or_intro hany hopen)

variable (alphabet options pathSeparators) in
/-- The loop comes from one turn to another. -/
def Reaches : State Character → State Character → Prop :=
  Relation.ReflTransGen (fun s t => step alphabet options pathSeparators s = .inr t)

/-- A run that never goes on behind a separator gives the answer. -/
theorem loop_answers (hcase : options.caseInsensitive = false)
    (hsep : options.pathname = true → ∀ c, c ∈ pathSeparators ↔ c = alphabet.literal '/')
    (h : Follows alphabet options answer s)
    (hcross : ∀ t, Reaches alphabet options pathSeparators s t → ¬ Crosses alphabet options pathSeparators t) :
    ∃ isMatch, loop alphabet options pathSeparators s = .returns isMatch ∧ (isMatch = true ↔ answer) := by
  induction s using shrinks_wf.induction with
  | _ s ih =>
    have hstep := step_answers hcase hsep h (hcross s .refl)
    cases hs : step alphabet options pathSeparators s with
    | inl outcome =>
      rw [hs] at hstep
      cases outcome with
      | returns isMatch => exact ⟨isMatch, loop_of_outcome alphabet options pathSeparators hs, hstep⟩
      | rangeError pattern | trap => exact absurd hstep not_false
    | inr t =>
      rw [hs] at hstep
      rw [loop_of_next alphabet options pathSeparators hs]
      exact ih t (step_shrinks alphabet options pathSeparators hs) hstep (fun u hu => hcross u (.head hs hu))

/-- A run that goes on behind a separator somewhere is after a no. -/
theorem not_answer_of_reaches (hcase : options.caseInsensitive = false)
    (hsep : options.pathname = true → ∀ c, c ∈ pathSeparators ↔ c = alphabet.literal '/') {t : State Character}
    (hst : Reaches alphabet options pathSeparators s t) (hcross : Crosses alphabet options pathSeparators t)
    (h : Follows alphabet options answer s) : ¬ answer := by
  induction hst using Relation.ReflTransGen.head_induction_on with
  | refl => exact not_answer_of_crosses hsep h hcross
  | @head s u hsu _ ih =>
    by_cases hs : Crosses alphabet options pathSeparators s
    · exact not_answer_of_crosses hsep h hs
    · have hstep := step_answers hcase hsep h hs
      rw [hsu] at hstep
      exact ih hstep

variable (alphabet options) in
def start (pattern input : List Character) : State Character := ⟨pattern, input, none, input⟩

theorem follows_start {pattern : List Character} (input : List Character) {items : List (Item Character)}
    (h : Meaning alphabet (Within alphabet options) pattern items) :
    Follows alphabet options (Matches (Within alphabet options) items input) (start pattern input) :=
  ⟨items, none, h, Attempt.start, rfl⟩

end Run

/-! ## Reading a pattern -/

section Reading

variable {S : Character → Prop}

variable {listed : List (Character × Character)} {text : List Character}

theorem Lists.mem {rest : List Character} (h : Lists alphabet text listed rest) : ∀ r ∈ listed, r.1 ∈ text := by
  induction h with
  | close rest => exact fun r hr => absurd hr not_mem_nil
  | range _ _ _ _ ih =>
    intro r hr
    rcases mem_cons.mp hr with rfl | hr
    · exact mem_cons_self
    · exact mem_cons_of_mem _ (mem_cons_of_mem _ (mem_cons_of_mem _ (ih r hr)))
  | single _ _ _ ih =>
    intro r hr
    rcases mem_cons.mp hr with rfl | hr
    · exact mem_cons_self
    · exact mem_cons_of_mem _ (ih r hr)

theorem Lists.suffix {rest : List Character} (h : Lists alphabet text listed rest) : rest <:+ text := by
  induction h with
  | close rest => exact suffix_cons _ _
  | range _ _ _ _ ih => exact ((ih.trans (suffix_cons _ _)).trans (suffix_cons _ _)).trans (suffix_cons _ _)
  | single _ _ _ ih => exact ih.trans (suffix_cons _ _)

/-- A pattern of characters of `S` means its pieces, as far as they match within `S`. -/
theorem Reads.meaning {more : List Character} {pieces : List (Piece Character)} {items : List (Item Character)}
    (h : Reads alphabet text pieces) (hS : ∀ c ∈ text, S c) (hmore : Meaning alphabet S more items) :
    Meaning alphabet S (text ++ more) (pieces.map (fun p => p.item.restrict S) ++ items) := by
  induction h with
  | nil => exact hmore
  | anySequence _ ih => exact .anySequence (ih (fun c hc => hS c (mem_cons_of_mem _ hc)))
  | anyCharacter _ ih =>
    have hitem : (Piece.anyCharacter.item : Item Character).restrict S = .one S := by
      simp only [Piece.item, Item.restrict, and_true]
    rw [map_cons, hitem]
    exact .anyCharacter (ih (fun c hc => hS c (mem_cons_of_mem _ hc)))
  | @bracket text listed rest pieces hhead hl _ ih =>
    have hitem : (Piece.bracket false listed).item.restrict S = .one (fun c => S c ∧ Listed listed c) := by
      simp [Piece.item, Item.restrict]
    have htext : ∀ c ∈ text, S c := fun c hc => hS c (mem_cons_of_mem _ hc)
    rw [map_cons, hitem]
    refine .bracket ?_ (hl.append more) (fun r hr => htext _ (hl.mem r hr)) (ih (fun c hc => htext c (hl.suffix.mem hc)))
    show (text ++ more).head? ≠ _
    rwa [head?_append_of_ne_nil _ hl.ne_nil]
  | @negated text listed rest pieces hl _ ih =>
    have hitem : (Piece.bracket true listed).item.restrict S = .one (fun c => S c ∧ ¬ Listed listed c) := by
      simp [Piece.item, Item.restrict]
    have htext : ∀ c ∈ text, S c := fun c hc => hS c (mem_cons_of_mem _ (mem_cons_of_mem _ hc))
    rw [map_cons, hitem]
    exact .negated (hl.append more) (fun r hr => htext _ (hl.mem r hr)) (ih (fun c hc => htext c (hl.suffix.mem hc)))
  | @character c text pieces hstar hany hopen _ ih =>
    have hitem : (Piece.character c).item.restrict S = .one (fun sc => sc = c) := by
      have hc : S c := hS c mem_cons_self
      simp only [Piece.item, Item.restrict, Item.one.injEq]
      funext sc
      exact propext ⟨And.right, fun h => ⟨h ▸ hc, h⟩⟩
    rw [map_cons, hitem]
    exact .character hstar hany hopen (ih (fun d hd => hS d (mem_cons_of_mem _ hd)))

variable (alphabet) in
/-- The items of the components of a pattern, with the separator between them. -/
def itemsOf (S : Character → Prop) (comps : List (List (Piece Character))) : List (Item Character) :=
  joined (alphabet.literal '/') (comps.map (fun pieces => pieces.map (fun p => p.item.restrict S)))

/-- A pattern that is read component by component. -/
theorem meaning_components {texts : List (List Character)} {comps : List (List (Piece Character))}
    (h : List.Forall₂ (Reads alphabet) texts comps) (hS : ∀ text ∈ texts, ∀ c ∈ text, S c) :
    Meaning alphabet S ([alphabet.literal '/'].intercalate texts) (itemsOf alphabet S comps) := by
  induction h with
  | nil => exact .nil
  | @cons text pieces texts comps htext hrest ih =>
    have hrest' := ih (fun t ht => hS t (mem_cons_of_mem _ ht))
    have hfirst := hS text mem_cons_self
    cases hrest with
    | nil =>
      have hm := htext.meaning hfirst .nil
      simp only [append_nil] at hm
      simpa [itemsOf, joined, List.intercalate] using hm
    | cons hnext hrest =>
      have hslash : Meaning alphabet S (alphabet.literal '/' :: _) _ :=
        .character (by simp) (by simp) (by simp) hrest'
      have hm := htext.meaning hfirst hslash
      simpa [itemsOf, joined, List.intercalate] using hm

end Reading

/-! ## The answers of `fnmatch` -/

theorem restrict_iff {S : Character → Prop} {pieces : List (Piece Character)} {l : List Character}
    (hl : ∀ c ∈ l, S c) : Matches S (pieces.map (fun p => p.item.restrict S)) l ↔ Globs pieces l := by
  have h := matches_restrict (q := pieces.map Piece.item) hl
  rwa [map_map] at h

/-- With the default options, `fnmatch` answers whether the input matches the pattern. -/
theorem fnmatch_default {pattern : List Character} {pieces : List (Piece Character)}
    (h : Reads alphabet pattern pieces) (input : List Character) :
    ∃ isMatch, fnmatch alphabet {} pathSeparators pattern input = .returns isMatch ∧
      (isMatch = true ↔ Globs pieces input) := by
  have hwithin : ∀ c, Within alphabet {} c := fun c hc => false_ne_true hc.2
  have hmeaning := h.meaning (fun c _ => hwithin c) .nil
  rw [append_nil, append_nil] at hmeaning
  have hnever : ∀ t, Reaches alphabet {} pathSeparators (start pattern input) t →
      ¬ Crosses alphabet {} pathSeparators t := by
    rintro t - ⟨_, _, _, _, -, -, -, hpath, -, -⟩
    exact false_ne_true hpath
  obtain ⟨isMatch, hloop, hiff⟩ := loop_answers rfl (fun hp => absurd hp Bool.false_ne_true)
    (follows_start input hmeaning) hnever
  exact ⟨isMatch, hloop, hiff.trans (restrict_iff (fun c _ => hwithin c))⟩

theorem within_of_mem_splitOn {l text : List Character} (htext : text ∈ l.splitOn (alphabet.literal '/'))
    {c : Character} (hc : c ∈ text) : Within alphabet { pathname := true } c := by
  rintro ⟨rfl, -⟩
  exact notMem_of_mem_splitOn htext hc

/-- What the items of components match is matched component by component. -/
theorem matches_itemsOf {comps : List (List (Piece Character))} (hne : comps ≠ []) {input : List Character} :
    Matches (Within alphabet { pathname := true }) (itemsOf alphabet (Within alphabet { pathname := true }) comps) input ↔
      List.Forall₂ Globs comps (input.splitOn (alphabet.literal '/')) := by
  have hS : ∀ c, Within alphabet { pathname := true } c ↔ c ≠ alphabet.literal '/' := by
    intro c
    simp [Within]
  unfold itemsOf
  rw [matches_joined hS (by simpa using hne) ?_, forall₂_map_left_iff]
  · apply forall₂_congr_right
    intro pieces text htext
    exact restrict_iff (fun c hc => within_of_mem_splitOn htext hc)
  · intro q hq i hi
    obtain ⟨pieces, -, rfl⟩ := mem_map.mp hq
    obtain ⟨p, -, rfl⟩ := mem_map.mp hi
    exact Item.within_restrict _

end

/-- Characters of one Unicode scalar each. -/
def Alphabet.scalars : Alphabet Char := ⟨Function.Embedding.refl Char, Char.toLower⟩

theorem fnmatch_default_range : ∃ isMatch,
    fnmatch Alphabet.scalars {} ['/'] ['[', 'a', '-', 'c', ']', '*'] ['b', '/', 'x'] = .returns isMatch ∧
      (isMatch = true ↔ Globs [.bracket false [('a', 'c')], .anySequence] ['b', '/', 'x']) :=
  fnmatch_default (.bracket (by decide) (.range (by decide) (by decide) (by decide) (.close _)) (.anySequence .nil))
    ['b', '/', 'x']

section

variable {Character : Type} [LinearOrder Character] {alphabet : Alphabet Character}

variable (alphabet) in
/-- In a run of `fnmatch`, the loop goes on behind a separator. -/
def RunCrosses (pattern input : List Character) : Prop :=
  ∃ t, Reaches alphabet { pathname := true } [alphabet.literal '/'] (start pattern input) t ∧
    Crosses alphabet { pathname := true } [alphabet.literal '/'] t

/-- With the `pathname` option, `fnmatch` compares component by component, unless it goes on behind a separator; where
it does, the input does not match. -/
theorem fnmatch_pathname {pattern : List Character} {comps : List (List (Piece Character))}
    (h : List.Forall₂ (Reads alphabet) (pattern.splitOn (alphabet.literal '/')) comps) (input : List Character) :
    (¬ RunCrosses alphabet pattern input →
      ∃ isMatch, fnmatch alphabet { pathname := true } [alphabet.literal '/'] pattern input = .returns isMatch ∧
        (isMatch = true ↔ List.Forall₂ Globs comps (input.splitOn (alphabet.literal '/')))) ∧
    (RunCrosses alphabet pattern input →
      ¬ List.Forall₂ Globs comps (input.splitOn (alphabet.literal '/'))) := by
  have hsep : ({ pathname := true } : FnmatchOptions).pathname = true →
      ∀ c, c ∈ [alphabet.literal '/'] ↔ c = alphabet.literal '/' := fun _ c => mem_singleton
  have hmeaning := meaning_components h (fun text htext c hc => within_of_mem_splitOn htext hc)
  rw [intercalate_splitOn] at hmeaning
  have hne : comps ≠ [] := by
    rintro rfl
    exact splitOn_ne_nil _ _ (forall₂_nil_right_iff.mp h)
  have hfollows := follows_start input hmeaning
  rw [matches_itemsOf hne] at hfollows
  constructor
  · intro hcross
    exact loop_answers rfl hsep hfollows (fun t ht hc => hcross ⟨t, ht, hc⟩)
  · rintro ⟨t, ht, hc⟩
    exact not_answer_of_reaches rfl hsep ht hc hfollows

end

theorem reads_star_a_any : List.Forall₂ (Reads Alphabet.scalars) (['*', 'a', '?'].splitOn (Alphabet.scalars.literal '/'))
    [[.anySequence, .character 'a', .anyCharacter]] := by
  have hsplit : ['*', 'a', '?'].splitOn (Alphabet.scalars.literal '/') = [['*', 'a', '?']] := by decide
  rw [hsplit]
  exact .cons (.anySequence (.character (by decide) (by decide) (by decide) (.anyCharacter .nil))) .nil

theorem fnmatch_pathname_star :
    (¬ RunCrosses Alphabet.scalars ['*', 'a', '?'] ['a', '/', 'a', 'b'] →
      ∃ isMatch, fnmatch Alphabet.scalars { pathname := true } ['/'] ['*', 'a', '?'] ['a', '/', 'a', 'b']
          = .returns isMatch ∧
        (isMatch = true ↔ List.Forall₂ Globs [[.anySequence, .character 'a', .anyCharacter]]
          (['a', '/', 'a', 'b'].splitOn (Alphabet.scalars.literal '/')))) ∧
    (RunCrosses Alphabet.scalars ['*', 'a', '?'] ['a', '/', 'a', 'b'] →
      ¬ List.Forall₂ Globs [[.anySequence, .character 'a', .anyCharacter]]
        (['a', '/', 'a', 'b'].splitOn (Alphabet.scalars.literal '/'))) :=
  fnmatch_pathname reads_star_a_any ['a', '/', 'a', 'b']

/-- `?` meets the separator, the loop goes back to the star, and the separator is dropped. -/
theorem not_fnmatch_pathname : ¬ ∀ (pattern input : List Char) (comps : List (List (Piece Char))),
    List.Forall₂ (Reads Alphabet.scalars) (pattern.splitOn (Alphabet.scalars.literal '/')) comps →
      (fnmatch Alphabet.scalars { pathname := true } ['/'] pattern input = .returns true ↔
        List.Forall₂ Globs comps (input.splitOn (Alphabet.scalars.literal '/'))) := by
  intro h
  have hiff := h ['*', 'a', '?'] ['a', '/', 'a', 'b'] _ reads_star_a_any
  have hrun : fnmatch Alphabet.scalars { pathname := true } ['/'] ['*', 'a', '?'] ['a', '/', 'a', 'b']
      = .returns true := by
    unfold fnmatch
    rw [loop_of_next _ _ _ rfl, loop_of_next _ _ _ rfl, loop_of_next _ _ _ rfl, loop_of_next _ _ _ rfl,
      loop_of_next _ _ _ rfl]
    exact loop_of_outcome _ _ _ rfl
  -- one component of the pattern, two of the input
  have hlength := (hiff.mp hrun).length_eq
  have htwo : (['a', '/', 'a', 'b'].splitOn (Alphabet.scalars.literal '/')).length = 2 := by decide
  rw [htwo] at hlength
  exact absurd hlength (by decide)

end Builra.Fnmatch
