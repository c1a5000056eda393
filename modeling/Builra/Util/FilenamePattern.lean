import Builra.Util.FnmatchMatches
import Builra.Lib.Separated
import Mathlib.Data.List.Induction

namespace Builra.Fnmatch

open List Separated

/-!
# `Util.FilenamePattern` — file name patterns

`matchesFilenamePattern` counts the components of a relative pattern, finds as many components at the end of the path,
and matches them with `fnmatch`. The path is read backwards, and its first character ends the search before a component
of that one character has been counted.
-/

section

variable {Character : Type} [LinearOrder Character] (alphabet : Alphabet Character)

/-! ## The source -/

/-- The variables of the loop over the pattern. -/
structure Count where
  numComponents : Nat := 0
  isInPathComponent : Bool := false
  nextCharacterIsEscaped : Bool := false

def countTurn (s : Count) (c : Character) : Count :=
  let s :=
    -- skip over path separators, unless they are escaped
    if c = alphabet.literal '/' then
      if s.nextCharacterIsEscaped then s else { s with isInPathComponent := false }
    else
      { s with
        numComponents := if s.isInPathComponent then s.numComponents else s.numComponents + 1
        isInPathComponent := true }
  { s with nextCharacterIsEscaped := !s.nextCharacterIsEscaped && c = alphabet.literal '\\' }

def numPathComponentsInPattern (pattern : List Character) : Nat :=
  (pattern.foldl (countTurn alphabet) {}).numComponents

/-- The loop over the path, which is given backwards; `trailing` is what the loop has passed. The result is what stands
from the first index on, and the number of components counted. -/
def scan (numPathComponentsInPattern : Nat) : List Character → List Character → Nat → Bool →
    Option (List Character) × Nat
  | [], _, numPathComponentsInPath, _ => (none, numPathComponentsInPath)
  | c :: rest, trailing, numPathComponentsInPath, isInPathComponent =>
    if c = alphabet.literal '/' then
      -- the expected number of path components has been found
      if numPathComponentsInPath = numPathComponentsInPattern then (some trailing, numPathComponentsInPath)
      else scan numPathComponentsInPattern rest (c :: trailing) numPathComponentsInPath false
    -- without a path separator, the full string is the trailing subpath
    else if rest = [] then (some (c :: trailing), numPathComponentsInPath)
    else
      scan numPathComponentsInPattern rest (c :: trailing)
        (if isInPathComponent then numPathComponentsInPath else numPathComponentsInPath + 1) true

/-- The trailing subpath that is matched. -/
def trailingSubpath (numPathComponentsInPattern : Nat) (str : List Character) : Option (List Character) :=
  match scan alphabet numPathComponentsInPattern str.reverse [] 0 false with
  | (none, _) => none
  | (some first, numPathComponentsInPath) =>
    if numPathComponentsInPath = numPathComponentsInPattern then some first else none

/-- `fnmatch` with the `pathname` option, where an error is no match; nothing where it is a runtime error. -/
def tryFnmatch (pattern input : List Character) : Option Bool :=
  match fnmatch alphabet { pathname := true } [alphabet.literal '/'] pattern input with
  | .returns isMatch => some isMatch
  | .rangeError _ => some false
  | .trap => none

/-- Whether the path matches the pattern; nothing where `fnmatch` is a runtime error. -/
def matchesFilenamePattern (str pattern : List Character) : Option Bool :=
  -- an empty path doesn't match anything, even an empty pattern
  if str = [] then some false
  else if pattern = [] ∨ pattern.head? = some (alphabet.literal '/') then tryFnmatch alphabet pattern str
  else
    match trailingSubpath alphabet (numPathComponentsInPattern alphabet pattern) str with
    | none => some false
    | some first => tryFnmatch alphabet pattern first

/-! ## The purpose -/

/-- The last `n` components of the path. -/
def lastComponents (n : Nat) (str : List Character) : List Character :=
  let components := Separated.components (alphabet.literal '/') str
  [alphabet.literal '/'].intercalate (components.drop (components.length - n))

/-- The path has at least as many components as the pattern, and its last ones match. -/
def TrailingMatch (str pattern : List Character) : Prop :=
  let n := (Separated.components (alphabet.literal '/') pattern).length
  n ≤ (Separated.components (alphabet.literal '/') str).length ∧
    fnmatch alphabet { pathname := true } [alphabet.literal '/'] pattern (lastComponents alphabet n str) = .returns true

/-- A path without empty components, as every normalized path is. -/
def Tidy (str : List Character) : Prop :=
  str = [alphabet.literal '/'] ∨
    ∀ c ∈ (if str.head? = some (alphabet.literal '/') then str.tail else str).splitOn (alphabet.literal '/'), c ≠ []

/-- The path is relative, its first component is a single character, and it has as many components as the pattern and
matches. -/
structure MissedFirst (str pattern : List Character) : Prop where
  relative : str.head? ≠ some (alphabet.literal '/')
  single : ∃ c, (Separated.components (alphabet.literal '/') str).head? = some [c]
  length_eq : (Separated.components (alphabet.literal '/') str).length
    = (Separated.components (alphabet.literal '/') pattern).length
  isMatch : fnmatch alphabet { pathname := true } [alphabet.literal '/'] pattern str = .returns true

/-! ## Counting -/

variable {alphabet}

/-- Without backslashes, nothing is escaped. -/
theorem foldl_countTurn {pattern : List Character} (h : alphabet.literal '\\' ∉ pattern) (n : Nat) (inComponent : Bool) :
    (pattern.foldl (countTurn alphabet) ⟨n, inComponent, false⟩).numComponents =
      n + Separated.runs (alphabet.literal '/') inComponent pattern := by
  induction pattern generalizing n inComponent with
  | nil => rfl
  | cons c pattern ih =>
    have hc : ¬ c = alphabet.literal '\\' := fun hc => h (hc ▸ mem_cons_self)
    have hrest : alphabet.literal '\\' ∉ pattern := fun hmem => h (mem_cons_of_mem _ hmem)
    rw [foldl_cons, runs]
    by_cases hsep : c = alphabet.literal '/'
    · have hturn : countTurn alphabet ⟨n, inComponent, false⟩ c = ⟨n, false, false⟩ := by
        simp [countTurn, hsep]
      rw [hturn, ih hrest, if_pos hsep]
    · have hturn : countTurn alphabet ⟨n, inComponent, false⟩ c
          = ⟨if inComponent then n else n + 1, true, false⟩ := by
        simp [countTurn, hsep, hc]
      rw [hturn, ih hrest, if_neg hsep]
      cases inComponent with
      | true =>
        show n + _ = n + (0 + _)
        rw [Nat.zero_add]
      | false => exact Nat.add_assoc _ _ _

theorem numPathComponentsInPattern_eq {pattern : List Character} (h : alphabet.literal '\\' ∉ pattern) :
    numPathComponentsInPattern alphabet pattern = (Separated.components (alphabet.literal '/') pattern).length := by
  rw [← runs_false]
  exact (foldl_countTurn h 0 false).trans (Nat.zero_add _)

/-! ## Reading the path backwards -/

/-- The result of the search. -/
def found (n : Nat) : Option (List Character) × Nat → Option (List Character)
  | (none, _) => none
  | (some first, k) => if k = n then some first else none

theorem trailingSubpath_eq (n : Nat) (str : List Character) :
    trailingSubpath alphabet n str = found n (scan alphabet n str.reverse [] 0 false) := rfl

/-- A component is passed. -/
theorem scan_component {n k : Nat} {c rest trailing : List Character} (hne : c ≠ []) (hc : alphabet.literal '/' ∉ c)
    (hrest : rest ≠ []) :
    scan alphabet n (c.reverse ++ rest) trailing k false = scan alphabet n rest (c ++ trailing) (k + 1) true := by
  have hin : ∀ (c : List Character) (trailing : List Character) (k : Nat), alphabet.literal '/' ∉ c →
      scan alphabet n (c ++ rest) trailing k true = scan alphabet n rest (c.reverse ++ trailing) k true := by
    intro c
    induction c with
    | nil => exact fun _ _ _ => rfl
    | cons b c ih =>
      intro trailing k hc
      have hb : ¬ b = alphabet.literal '/' := fun hb => hc (hb ▸ mem_cons_self)
      rw [cons_append, scan, if_neg hb, if_neg (append_ne_nil_of_right_ne_nil c hrest)]
      exact (ih (b :: trailing) k (fun hmem => hc (mem_cons_of_mem _ hmem))).trans (by simp)
  obtain ⟨c, b, rfl⟩ := eq_nil_or_concat' c |>.resolve_left hne
  have hb : ¬ b = alphabet.literal '/' := fun hb => hc (by simp [hb])
  rw [reverse_append, reverse_singleton, singleton_append, cons_append, scan, if_neg hb,
    if_neg (append_ne_nil_of_right_ne_nil _ hrest)]
  exact (hin c.reverse (b :: trailing) (k + 1) (fun hmem => hc (by simpa using .inl (mem_reverse.mp hmem)))).trans
    (by simp)

/-- The first component is passed up to its first character. -/
theorem scan_first (n k : Nat) {c : List Character} (trailing : List Character) (hne : c ≠ [])
    (hc : alphabet.literal '/' ∉ c) :
    scan alphabet n c.reverse trailing k false = (some (c ++ trailing), if c.length = 1 then k else k + 1) := by
  obtain ⟨b, c, rfl⟩ := exists_cons_of_ne_nil hne
  have hb : ¬ b = alphabet.literal '/' := fun hb => hc (hb ▸ mem_cons_self)
  have hlast : ∀ (t : List Character) (k : Nat) (inComponent : Bool),
      scan alphabet n [b] t k inComponent = (some (b :: t), k) := by
    intro t k inComponent
    rw [scan, if_neg hb, if_pos rfl]
  cases c with
  | nil => exact hlast trailing k false
  | cons d c =>
    rw [reverse_cons, scan_component (cons_ne_nil d c) (fun hmem => hc (mem_cons_of_mem _ hmem))
      (cons_ne_nil b []), hlast, if_neg (by simp)]
    rfl

variable (alphabet) in
/-- A path with the given components. -/
def pathOf (absolute : Bool) (parts : List (List Character)) : List Character :=
  (if absolute then [alphabet.literal '/'] else []) ++ [alphabet.literal '/'].intercalate parts

/-- The path has as many components as are looked for, and the first one is a single character. -/
def Stumbles (absolute : Bool) (parts : List (List Character)) (wanted : Nat) : Prop :=
  absolute = false ∧ wanted = parts.length ∧ ∃ c, parts.head? = some [c]

/-- With `k` components passed, the loop looks for `n - k` more. -/
theorem found_scan {absolute : Bool} {parts : List (List Character)}
    (h : ∀ part ∈ parts, part ≠ [] ∧ alphabet.literal '/' ∉ part) (hne : parts ≠ []) {n k : Nat} (hk : k < n)
    (trailing : List Character) :
    (n - k ≤ parts.length ∧ ¬ Stumbles absolute parts (n - k) →
      found n (scan alphabet n (pathOf alphabet absolute parts).reverse trailing k false) =
        some ([alphabet.literal '/'].intercalate (parts.drop (parts.length - (n - k))) ++ trailing)) ∧
    (parts.length < n - k ∨ Stumbles absolute parts (n - k) →
      found n (scan alphabet n (pathOf alphabet absolute parts).reverse trailing k false) = none) := by
  induction parts using List.reverseRecOn generalizing k trailing with
  | nil => exact absurd rfl hne
  | append_singleton init part ih =>
    obtain ⟨hpart, hsep⟩ := h part (by simp)
    by_cases hinit : init = []
    · subst hinit
      have hpath : pathOf alphabet absolute ([] ++ [part]) =
          (if absolute then [alphabet.literal '/'] else []) ++ part := by
        simp [pathOf]
      rw [hpath, nil_append, length_singleton]
      cases absolute with
      | true =>
        have hscan : found n (scan alphabet n ((if true then [alphabet.literal '/'] else []) ++ part).reverse trailing k
            false) = if k + 1 = n then some (part ++ trailing) else none := by
          rw [reverse_append, scan_component hpart hsep (by simp)]
          show found n (scan alphabet n [alphabet.literal '/'] _ _ _) = _
          rw [scan, if_pos rfl]
          by_cases hn : k + 1 = n
          · rw [if_pos hn, if_pos hn]
            exact if_pos hn
          · rw [if_neg hn, if_neg hn]
            rfl
        rw [hscan]
        constructor
        · rintro ⟨hle, -⟩
          rw [if_pos (by omega), show 1 - (n - k) = 0 by omega]
          simp
        · rintro (hlt | ⟨habs, -⟩)
          · exact if_neg (by omega)
          · exact absurd habs (by simp)
      | false =>
        have hscan : found n (scan alphabet n ((if false then [alphabet.literal '/'] else []) ++ part).reverse trailing k
            false) = if (if part.length = 1 then k else k + 1) = n then some (part ++ trailing) else none := by
          show found n (scan alphabet n part.reverse _ _ _) = _
          rw [scan_first n k trailing hpart hsep]
          rfl
        have hsingle : part.length = 1 ↔ ∃ c, [part].head? = some [c] := by
          rw [length_eq_one_iff]
          simp
        rw [hscan]
        constructor
        · rintro ⟨hle, hnot⟩
          have hlen : ¬ part.length = 1 := fun hlen => hnot ⟨rfl, by rw [length_singleton]; omega, hsingle.mp hlen⟩
          rw [if_neg hlen, if_pos (by omega), show 1 - (n - k) = 0 by omega]
          simp
        · rintro (hlt | ⟨-, -, hhead⟩)
          · refine if_neg ?_
            split <;> omega
          · rw [if_pos (hsingle.mpr hhead)]
            exact if_neg (by omega)
    · have hreverse : (pathOf alphabet absolute (init ++ [part])).reverse =
          part.reverse ++ alphabet.literal '/' :: (pathOf alphabet absolute init).reverse := by
        unfold pathOf
        rw [intercalate_append_singleton hinit, ← append_assoc, reverse_append]
        simp
      have hhead : (init ++ [part]).head? = init.head? := List.head?_append_of_ne_nil _ hinit
      have hpos : 0 < init.length := length_pos_of_ne_nil hinit
      have hlen : (init ++ [part]).length = init.length + 1 := by simp
      have hscan : scan alphabet n (pathOf alphabet absolute (init ++ [part])).reverse trailing k false =
          if k + 1 = n then (some (part ++ trailing), k + 1)
          else scan alphabet n (pathOf alphabet absolute init).reverse (alphabet.literal '/' :: (part ++ trailing))
            (k + 1) false := by
        rw [hreverse, scan_component hpart hsep (cons_ne_nil _ _), scan, if_pos rfl]
      rw [hscan, hlen]
      by_cases hn : k + 1 = n
      · -- the last component that is looked for
        rw [if_pos hn]
        constructor
        · intro _
          rw [show init.length + 1 - (n - k) = init.length by omega, drop_left]
          simp [found, hn]
        · rintro (hlt | ⟨-, hwanted, -⟩)
          · omega
          · rw [hlen] at hwanted
            omega
      · rw [if_neg hn]
        obtain ⟨hsome, hnone⟩ := ih (fun p hp => h p (mem_append_left _ hp)) hinit (show k + 1 < n by omega)
          (alphabet.literal '/' :: (part ++ trailing))
        have hstumbles : Stumbles absolute (init ++ [part]) (n - k) ↔ Stumbles absolute init (n - (k + 1)) := by
          unfold Stumbles
          rw [hhead, hlen]
          have hwanted : n - k = init.length + 1 ↔ n - (k + 1) = init.length := by omega
          rw [hwanted]
        rw [hstumbles]
        constructor
        · rintro ⟨hle, hnot⟩
          rw [hsome ⟨by omega, hnot⟩, drop_append_of_le_length (by omega),
            show init.length + 1 - (n - k) = init.length - (n - (k + 1)) by omega,
            intercalate_append_singleton]
          · simp
          · rw [Ne, drop_eq_nil_iff]
            omega
        · rintro (hlt | hst)
          · exact hnone (.inl (by omega))
          · exact hnone (.inr hst)

/-! ## The match -/

/-- A path without empty components is put together from them. -/
theorem Tidy.exists_parts {str : List Character} (h : Tidy alphabet str) :
    ∃ absolute parts, str = pathOf alphabet absolute parts ∧
      (∀ part ∈ parts, part ≠ [] ∧ alphabet.literal '/' ∉ part) ∧
      Separated.components (alphabet.literal '/') str = parts ∧ (parts = [] → absolute = true) ∧
      (absolute = true ↔ str.head? = some (alphabet.literal '/')) := by
  rcases h with rfl | h
  · refine ⟨true, [], rfl, by simp, ?_, fun _ => rfl, by simp⟩
    rw [components_cons_sep]
    rfl
  · have hvalid : ∀ l : List Character, (∀ c ∈ l.splitOn (alphabet.literal '/'), c ≠ []) →
        ∀ part ∈ l.splitOn (alphabet.literal '/'), part ≠ [] ∧ alphabet.literal '/' ∉ part :=
      fun l hl part hpart => ⟨hl part hpart, Wildcard.notMem_of_mem_splitOn hpart⟩
    have hcomponents : ∀ l : List Character, (∀ c ∈ l.splitOn (alphabet.literal '/'), c ≠ []) →
        components (alphabet.literal '/') l = l.splitOn (alphabet.literal '/') :=
      fun l hl => filter_eq_self.mpr (fun part hpart => by simpa using hl part hpart)
    by_cases habs : str.head? = some (alphabet.literal '/')
    · rw [if_pos habs] at h
      obtain ⟨rest, rfl⟩ := List.head?_eq_some_iff.mp habs
      rw [tail_cons] at h
      refine ⟨true, rest.splitOn (alphabet.literal '/'), ?_, hvalid rest h, ?_, fun _ => rfl, by simp⟩
      · unfold pathOf
        rw [intercalate_splitOn]
        rfl
      · rw [components_cons_sep, hcomponents rest h]
    · rw [if_neg habs] at h
      refine ⟨false, str.splitOn (alphabet.literal '/'), ?_, hvalid str h, hcomponents str h, ?_, by simp [habs]⟩
      · unfold pathOf
        rw [intercalate_splitOn]
        rfl
      · exact fun hnil => absurd hnil (splitOn_ne_nil _ _)

theorem tryFnmatch_eq_true_iff {pattern input : List Character} :
    tryFnmatch alphabet pattern input = some true ↔
      fnmatch alphabet { pathname := true } [alphabet.literal '/'] pattern input = .returns true := by
  unfold tryFnmatch
  cases fnmatch alphabet { pathname := true } [alphabet.literal '/'] pattern input with
  | returns isMatch => simp
  | rangeError text => simp
  | trap => simp

/-- The pattern is matched with the last components of the path, unless the first component is missed. -/
theorem matchesFilenamePattern_iff {str pattern : List Character} (hstr : Tidy alphabet str) (hne : pattern ≠ [])
    (hrel : pattern.head? ≠ some (alphabet.literal '/')) (hescape : alphabet.literal '\\' ∉ pattern) :
    (matchesFilenamePattern alphabet str pattern = some true ↔ TrailingMatch alphabet str pattern) ↔
      ¬ MissedFirst alphabet str pattern := by
  obtain ⟨absolute, parts, hpath, hparts, hcomponents, hroot, habs⟩ := hstr.exists_parts
  have hstrne : str ≠ [] := by
    rintro rfl
    rcases hstr with h | h
    · exact absurd h (by simp)
    · exact absurd rfl (h [] (by simp))
  have hpos : 0 < (components (alphabet.literal '/') pattern).length := by
    obtain ⟨c, pattern, rfl⟩ := exists_cons_of_ne_nil hne
    have hc : ¬ c = alphabet.literal '/' := by simpa using hrel
    rw [← runs_false, runs, if_neg hc, if_neg Bool.false_ne_true]
    omega
  have hcall : matchesFilenamePattern alphabet str pattern =
      match trailingSubpath alphabet (components (alphabet.literal '/') pattern).length str with
      | none => some false
      | some first => tryFnmatch alphabet pattern first := by
    unfold matchesFilenamePattern
    rw [if_neg hstrne, if_neg (not_or_intro hne hrel), numPathComponentsInPattern_eq hescape]
  rw [trailingSubpath_eq] at hcall
  have hmissed : MissedFirst alphabet str pattern ↔
      Stumbles absolute parts (components (alphabet.literal '/') pattern).length ∧
        fnmatch alphabet { pathname := true } [alphabet.literal '/'] pattern str = .returns true := by
    constructor
    · rintro ⟨hrelative, hsingle, hlength, hmatch⟩
      rw [hcomponents] at hsingle hlength
      refine ⟨⟨?_, hlength.symm, hsingle⟩, hmatch⟩
      exact (Bool.not_eq_true _).mp (fun htrue => hrelative (habs.mp htrue))
    · rintro ⟨⟨hfalse, hlength, hsingle⟩, hmatch⟩
      refine ⟨?_, hcomponents ▸ hsingle, hcomponents ▸ hlength.symm, hmatch⟩
      exact fun hhead => Bool.false_ne_true (hfalse.symm.trans (habs.mpr hhead))
  unfold TrailingMatch lastComponents
  rw [hmissed, hcomponents]
  generalize (components (alphabet.literal '/') pattern).length = n at hpos hcall ⊢
  dsimp only
  by_cases hparts' : parts = []
  · -- the root has no components
    subst hparts'
    obtain rfl := hroot rfl
    have hnone : found n (scan alphabet n str.reverse [] 0 false) = none := by
      rw [hpath]
      show found n (scan alphabet n [alphabet.literal '/'] [] 0 false) = none
      rw [scan, if_pos rfl, if_neg (by omega)]
      rfl
    rw [hnone] at hcall
    rw [hcall]
    refine iff_of_true ?_ (fun h => absurd h.1.1 (by simp))
    refine iff_of_false (by simp) ?_
    rintro ⟨hle, -⟩
    exact absurd hle (Nat.not_le_of_lt hpos)
  · obtain ⟨hsome, hnone⟩ := @found_scan _ _ alphabet absolute _ hparts hparts' _ _ hpos []
    rw [← hpath, Nat.sub_zero] at hsome hnone
    by_cases hst : Stumbles absolute parts n
    · rw [hnone (.inr hst)] at hcall
      obtain ⟨rfl, rfl, -⟩ := id hst
      have hwhole : [alphabet.literal '/'].intercalate (parts.drop (parts.length - parts.length)) = str := by
        rw [Nat.sub_self, drop_zero, hpath]
        rfl
      rw [hcall, hwhole, and_iff_right hst, and_iff_right (Nat.le_refl _)]
      simp
    · by_cases hle : n ≤ parts.length
      · rw [hsome ⟨hle, hst⟩] at hcall
        rw [hcall, append_nil]
        exact iff_of_true (tryFnmatch_eq_true_iff.trans (and_iff_right hle).symm) (fun h => hst h.1)
      · rw [hnone (.inl (Nat.lt_of_not_le hle))] at hcall
        rw [hcall]
        exact iff_of_true (iff_of_false (by simp) (fun h => hle h.1)) (fun h => hst h.1)

end

theorem tidy_ab : Tidy Alphabet.scalars ['a', 'b'] := .inr (by decide)

/-- The path `ab` and the pattern `*`. -/
theorem matchesFilenamePattern_ab : matchesFilenamePattern Alphabet.scalars ['a', 'b'] ['*'] = some true ↔
    TrailingMatch Alphabet.scalars ['a', 'b'] ['*'] := by
  refine (matchesFilenamePattern_iff tidy_ab (by decide) (by decide) (by decide)).mpr ?_
  rintro ⟨-, ⟨c, hc⟩, -, -⟩
  have hcomponents : (components (Alphabet.scalars.literal '/') ['a', 'b']).head? = some ['a', 'b'] := by decide
  rw [hcomponents] at hc
  exact absurd hc (by simp)

/-- The path `a` does not match the pattern `*`. -/
theorem not_matchesFilenamePattern : ¬ ∀ str pattern : List Char, Tidy Alphabet.scalars str → pattern ≠ [] →
    pattern.head? ≠ some (Alphabet.scalars.literal '/') → Alphabet.scalars.literal '\\' ∉ pattern →
    (matchesFilenamePattern Alphabet.scalars str pattern = some true ↔ TrailingMatch Alphabet.scalars str pattern) := by
  intro h
  have hfalse : matchesFilenamePattern Alphabet.scalars ['a'] ['*'] = some false := rfl
  have htrailing : TrailingMatch Alphabet.scalars ['a'] ['*'] := ⟨by decide, loop_of_outcome _ _ _ rfl⟩
  have htrue := (h ['a'] ['*'] (.inr (by decide)) (by decide) (by decide) (by decide)).mpr htrailing
  exact absurd (hfalse.symm.trans htrue) (by decide)

end Builra.Fnmatch
