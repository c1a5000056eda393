import Builra.Lib.GreedyMatch
import Builra.Util.Version

namespace Builra

open List Option Bool

/-!
# `Util.ProductBuildVersion` — product build versions such as `10A148a`

A string is split by a regular expression, then the numbers are read. The match is greedy: where it can be split after
the longest number, it is; else the last digits of that number are the train and the build (`Split`).
-/

open GreedyMatch (wholeMatch)

/-- The character classes `\d` and `\w` of a regular expression. Outside of ASCII, it only matters that digits are word
characters. -/
structure CharacterClasses where
  isDigit : Character → Bool
  isWord : Character → Bool
  isWord_of_isDigit : ∀ k, isDigit k = true → isWord k = true
  isDigit_ofScalar : ∀ c, Character.isASCIIScalar c = true → isDigit (.ofScalar c) = c.isDigit
  isWord_ofScalar : ∀ c, c.isAlpha = true → isWord (.ofScalar c) = true

structure ProductBuildVersion where
  major : Component
  train : Character
  build : Component
  buildSuffix : List Character := []

namespace ProductBuildVersion

/-! ## The source -/

def description (v : ProductBuildVersion) : List Character :=
  v.major.description ++ [v.train] ++ v.build.description ++ v.buildSuffix

variable (classes : CharacterClasses)

/-- `(?<major>\d+)(?<minor>\w)(?<build>\d+)(?<suffix>\w*)` -/
def pattern : List ((Character → Bool) × GreedyMatch.Repetition) :=
  [(classes.isDigit, .oneOrMore), (classes.isWord, .one), (classes.isDigit, .oneOrMore), (classes.isWord, .zeroOrMore)]

/-- Parses a product build version from its string form. An error is its message, and `none` a trap. -/
def ofString (string : List Character) :
    Option (Except (List Character) ProductBuildVersion) :=
  let error := Character.ofLiteral "Unable to parse product build version '" ++ string ++
    Character.ofLiteral "' because the input was in an invalid format."
  match wholeMatch (pattern classes) string with
  | some [major, [train], build, buildSuffix] => do
    let major ← Component.parse major
    let build ← Component.parse build
    let v : ProductBuildVersion := { major, train, build, buildSuffix }
    -- It's a "parse" error to not roundtrip to the same input.
    if string ≠ v.description then some (.error error) else some (.ok v)
  | _ => some (.error error)

/-! ## How a string is split -/

/-- What follows is not a digit. -/
def NoDigit (s : List Character) : Prop := ∀ k ∈ s.head?, classes.isDigit k = false

/-- The fields of a string that matches. -/
inductive Split (classes : CharacterClasses) :
    List Character → List Character → Character → List Character → List Character → Prop
  /-- A number, something else, and a number again. -/
  | letter {major build suffix train} (hmajor : major ≠ [])
      (hdigits : ∀ k ∈ major, classes.isDigit k = true) (htrain : classes.isWord train = true)
      (hletter : classes.isDigit train = false) (hbuild : build ≠ [])
      (hdigits' : ∀ k ∈ build, classes.isDigit k = true) (hsuffix : ∀ k ∈ suffix, classes.isWord k = true)
      (hend : NoDigit classes suffix) : Split classes (major ++ train :: (build ++ suffix)) major train build suffix
  /-- One number only: its last two digits are the train and the build. -/
  | digits {major suffix train last} (hmajor : major ≠ [])
      (hdigits : ∀ k ∈ major, classes.isDigit k = true) (htrain : classes.isDigit train = true)
      (hlast : classes.isDigit last = true) (hsuffix : ∀ k ∈ suffix, classes.isWord k = true)
      (hend : NoDigit classes suffix) (hend' : NoDigit classes suffix.tail) :
      Split classes (major ++ train :: last :: suffix) major train [last] suffix

section

variable {classes : CharacterClasses} {s : List Character} {fields : List (List Character)}

theorem wholeMatch_suffix : wholeMatch [(classes.isWord, .zeroOrMore)] s = some fields ↔
    fields = [s] ∧ ∀ k ∈ s, classes.isWord k = true := by
  rw [wholeMatch, map_eq_some_iff]
  constructor
  · rintro ⟨⟨m, r⟩, hmany, rfl⟩
    obtain ⟨t, rfl, hm, ht, -⟩ := GreedyMatch.many_eq_some.mp hmany
    cases t with
    | nil =>
      obtain rfl : [] = r := some.inj ht
      rw [append_nil]
      exact ⟨rfl, hm⟩
    | cons k t => cases ht
  · rintro ⟨rfl, hs⟩
    refine ⟨(s, []), GreedyMatch.many_eq_some.mpr ⟨[], (append_nil s).symm, hs, rfl, fun m' t' h hne _ => ?_⟩, rfl⟩
    exact absurd (append_eq_nil_iff.mp h.symm).1 hne

theorem wholeMatch_build :
    wholeMatch [(classes.isDigit, .oneOrMore), (classes.isWord, .zeroOrMore)] s = some fields ↔
      ∃ build suffix, fields = [build, suffix] ∧ s = build ++ suffix ∧ build ≠ [] ∧
        (∀ k ∈ build, classes.isDigit k = true) ∧ (∀ k ∈ suffix, classes.isWord k = true) ∧
        NoDigit classes suffix := by
  cases s with
  | nil =>
    refine iff_of_false (fun h => by cases h) ?_
    rintro ⟨build, suffix, -, h, hne, -⟩
    exact hne (append_eq_nil_iff.mp h.symm).1
  | cons k s =>
    rw [wholeMatch]
    constructor
    · intro h
      split_ifs at h with hk
      obtain ⟨⟨m, r⟩, hmany, rfl⟩ := map_eq_some_iff.mp h
      obtain ⟨t, rfl, hm, ht, hlongest⟩ := GreedyMatch.many_eq_some.mp hmany
      obtain ⟨rfl, hword⟩ := wholeMatch_suffix.mp ht
      refine ⟨k :: m, t, rfl, rfl, cons_ne_nil k m, forall_mem_cons.mpr ⟨hk, hm⟩, hword, fun d hd => ?_⟩
      -- a digit would have been taken
      by_contra hdigit
      obtain ⟨t', rfl⟩ := List.head?_eq_some_iff.mp hd
      have hnone := hlongest [d] t' rfl (cons_ne_nil d []) (by
        intro d' hd'
        rw [mem_singleton.mp hd']
        exact not_eq_false _ |>.mp hdigit)
      rw [wholeMatch_suffix.mpr ⟨rfl, fun k hk => hword k (mem_cons_of_mem _ hk)⟩] at hnone
      cases hnone
    · rintro ⟨build, suffix, rfl, h, hne, hdigits, hword, hend⟩
      obtain ⟨d, build, rfl⟩ := exists_cons_of_ne_nil hne
      cases h
      obtain ⟨hk, hdigits⟩ := forall_mem_cons.mp hdigits
      rw [if_pos hk, map_eq_some_iff]
      refine ⟨(build, [suffix]), GreedyMatch.many_eq_some.mpr ⟨suffix, rfl, hdigits,
        wholeMatch_suffix.mpr ⟨rfl, hword⟩, fun m' t' hsplit hne' hm' => ?_⟩, rfl⟩
      obtain ⟨d, m', rfl⟩ := exists_cons_of_ne_nil hne'
      rw [hsplit] at hend
      have hdigit := (forall_mem_cons.mp hm').1
      rw [hend d rfl] at hdigit
      exact absurd hdigit false_ne_true

theorem wholeMatch_train : wholeMatch [(classes.isWord, .one), (classes.isDigit, .oneOrMore),
      (classes.isWord, .zeroOrMore)] s = some fields ↔
    ∃ train build suffix, fields = [[train], build, suffix] ∧ s = train :: (build ++ suffix) ∧
      classes.isWord train = true ∧ build ≠ [] ∧ (∀ k ∈ build, classes.isDigit k = true) ∧
      (∀ k ∈ suffix, classes.isWord k = true) ∧ NoDigit classes suffix := by
  cases s with
  | nil =>
    refine iff_of_false (fun h => by cases h) ?_
    rintro ⟨train, build, suffix, -, h, -⟩
    cases h
  | cons k s =>
    rw [wholeMatch]
    constructor
    · intro h
      split_ifs at h with hk
      obtain ⟨rest, hrest, rfl⟩ := map_eq_some_iff.mp h
      obtain ⟨build, suffix, rfl, rfl, hbuild⟩ := wholeMatch_build.mp hrest
      exact ⟨k, build, suffix, rfl, rfl, hk, hbuild⟩
    · rintro ⟨train, build, suffix, rfl, h, hk, hbuild⟩
      cases h
      rw [if_pos hk, map_eq_some_iff]
      exact ⟨[build, suffix], wholeMatch_build.mpr ⟨build, suffix, rfl, rfl, hbuild⟩, rfl⟩

/-- The number at the start goes on until the rest matches, and not farther. -/
theorem wholeMatch_pattern : wholeMatch (pattern classes) s = some fields ↔
    ∃ major train build suffix, fields = [major, [train], build, suffix] ∧ Split classes s major train build suffix := by
  have hstart : wholeMatch (pattern classes) s = some fields ↔
      ∃ major t rest, fields = major :: rest ∧ s = major ++ t ∧ major ≠ [] ∧ (∀ k ∈ major, classes.isDigit k = true) ∧
        wholeMatch [(classes.isWord, .one), (classes.isDigit, .oneOrMore), (classes.isWord, .zeroOrMore)] t =
          some rest ∧
        ∀ m' t', t = m' ++ t' → m' ≠ [] → (∀ k ∈ m', classes.isDigit k = true) →
          wholeMatch [(classes.isWord, .one), (classes.isDigit, .oneOrMore), (classes.isWord, .zeroOrMore)] t' =
            none := by
    cases s with
    | nil =>
      refine iff_of_false (fun h => by cases h) ?_
      rintro ⟨major, t, rest, -, h, hne, -⟩
      exact hne (append_eq_nil_iff.mp h.symm).1
    | cons k s =>
      rw [pattern, wholeMatch]
      constructor
      · intro h
        split_ifs at h with hk
        obtain ⟨⟨m, r⟩, hmany, rfl⟩ := map_eq_some_iff.mp h
        obtain ⟨t, rfl, hm, ht, hlongest⟩ := GreedyMatch.many_eq_some.mp hmany
        exact ⟨k :: m, t, r, rfl, rfl, cons_ne_nil k m, forall_mem_cons.mpr ⟨hk, hm⟩, ht, hlongest⟩
      · rintro ⟨major, t, rest, rfl, h, hne, hdigits, ht, hlongest⟩
        obtain ⟨d, m, rfl⟩ := exists_cons_of_ne_nil hne
        cases h
        obtain ⟨hk, hm⟩ := forall_mem_cons.mp hdigits
        rw [if_pos hk, map_eq_some_iff]
        exact ⟨(m, rest), GreedyMatch.many_eq_some.mpr ⟨t, rfl, hm, ht, hlongest⟩, rfl⟩
  rw [hstart]
  constructor
  · rintro ⟨major, t, rest, rfl, rfl, hne, hdigits, ht, hlongest⟩
    obtain ⟨train, build, suffix, rfl, rfl, htrain, hbuild, hdigits', hsuffix, hend⟩ := wholeMatch_train.mp ht
    refine ⟨major, train, build, suffix, rfl, ?_⟩
    cases hletter : classes.isDigit train with
    | false => exact .letter hne hdigits htrain hletter hbuild hdigits' hsuffix hend
    | true =>
      -- a longer number with two digits behind it, or with something else and a number, would have been taken
      obtain ⟨last, build, rfl⟩ := exists_cons_of_ne_nil hbuild
      obtain ⟨hlast, hbuild'⟩ := forall_mem_cons.mp hdigits'
      cases build with
      | nil =>
        refine .digits hne hdigits hletter hlast hsuffix hend (fun d hd => ?_)
        by_contra hdigit
        have hdigit' := not_eq_false _ |>.mp hdigit
        cases suffix with
        | nil => cases hd
        | cons w y =>
          obtain ⟨y', rfl⟩ := List.head?_eq_some_iff.mp hd
          obtain ⟨hw, hy⟩ := forall_mem_cons.mp hsuffix
          have hnone := hlongest [train, last] (w :: d :: y') rfl (cons_ne_nil _ _) (by
            intro k hk
            rcases mem_cons.mp hk with rfl | hk
            · exact hletter
            · rw [mem_singleton.mp hk]
              exact hlast)
          -- the digits of the rest, from its second character on
          have hspan := takeWhile_append_dropWhile (p := classes.isDigit) (l := y')
          have hsome : wholeMatch [(classes.isWord, .one), (classes.isDigit, .oneOrMore),
              (classes.isWord, .zeroOrMore)] (w :: d :: y') =
                some [[w], d :: y'.takeWhile classes.isDigit, y'.dropWhile classes.isDigit] := by
            refine wholeMatch_train.mpr ⟨w, d :: y'.takeWhile classes.isDigit, y'.dropWhile classes.isDigit, rfl,
              ?_, hw, cons_ne_nil _ _, ?_, ?_, ?_⟩
            · rw [cons_append, hspan]
            · exact forall_mem_cons.mpr ⟨hdigit', fun k hk => all_eq_true.mp all_takeWhile k hk⟩
            · exact fun k hk => hy k (mem_cons_of_mem _ ((dropWhile_sublist _).subset hk))
            · intro k hk
              by_contra hk'
              exact List.head?_dropWhile_not classes.isDigit y' |> fun h => by
                rw [hk] at h
                exact hk' h
          rw [hsome] at hnone
          cases hnone
      | cons d build =>
        have hnone := hlongest [train] (last :: d :: build ++ suffix) rfl (cons_ne_nil _ _) (by
          intro k hk
          rw [mem_singleton.mp hk]
          exact hletter)
        have hsome : wholeMatch [(classes.isWord, .one), (classes.isDigit, .oneOrMore),
            (classes.isWord, .zeroOrMore)] (last :: d :: build ++ suffix) = some [[last], d :: build, suffix] :=
          wholeMatch_train.mpr ⟨last, d :: build, suffix, rfl, rfl, classes.isWord_of_isDigit last hlast,
            cons_ne_nil _ _, hbuild', hsuffix, hend⟩
        rw [hsome] at hnone
        cases hnone
  · rintro ⟨major, train, build, suffix, rfl, hsplit⟩
    cases hsplit with
    | letter hmajor hdigits htrain hletter hbuild hdigits' hsuffix hend =>
      refine ⟨major, train :: (build ++ suffix), [[train], build, suffix], rfl, rfl, hmajor, hdigits,
        wholeMatch_train.mpr ⟨train, build, suffix, rfl, rfl, htrain, hbuild, hdigits', hsuffix, hend⟩, ?_⟩
      intro m' t' hsplit hne hm'
      obtain ⟨d, m', rfl⟩ := exists_cons_of_ne_nil hne
      obtain ⟨rfl, -⟩ := List.cons.inj hsplit
      rw [(forall_mem_cons.mp hm').1] at hletter
      cases hletter
    | @digits major suffix train last hmajor hdigits htrain hlast hsuffix hend hend' =>
      refine ⟨major, train :: last :: suffix, [[train], [last], suffix], rfl, rfl, hmajor, hdigits,
        wholeMatch_train.mpr ⟨train, [last], suffix, rfl, rfl, classes.isWord_of_isDigit train htrain,
          cons_ne_nil _ _, ?_, hsuffix, hend⟩, ?_⟩
      · intro k hk
        rw [mem_singleton.mp hk]
        exact hlast
      · intro m' t' hsplit hne hm'
        rw [eq_none_iff_forall_ne_some]
        intro rest hrest
        obtain ⟨train', build', suffix', rfl, rfl, -, hbuild, hdigits', -, -⟩ := wholeMatch_train.mp hrest
        obtain ⟨k, build', rfl⟩ := exists_cons_of_ne_nil hbuild
        have hk := (forall_mem_cons.mp hdigits').1
        obtain ⟨d, m', rfl⟩ := exists_cons_of_ne_nil hne
        obtain ⟨rfl, htail⟩ := List.cons.inj hsplit
        cases m' with
        | nil =>
          -- the last digit would be the train, and a digit would follow
          cases htail
          rw [hend k rfl] at hk
          cases hk
        | cons d' m' =>
          cases htail
          cases m' with
          | nil =>
            rw [hend' k rfl] at hk
            cases hk
          | cons d'' m' =>
            have hd'' := (forall_mem_cons.mp (forall_mem_cons.mp (forall_mem_cons.mp hm').2).2).1
            rw [hend d'' rfl] at hd''
            cases hd''

/-! ## The numbers -/

/-- Decimal digits of ASCII whose value fits into a component. -/
def Fits (text : List Character) : Prop :=
  ∃ digits : List Char, text = digits.map Character.ofScalar ∧ digits ≠ [] ∧ digits.all Char.isDigit = true ∧
    Nat.ofDigitChars 10 digits 0 < 2 ^ 64

theorem unicodeScalars_map_ofScalar (digits : List Char) : unicodeScalars (digits.map Character.ofScalar) = digits := by
  induction digits with
  | nil => rfl
  | cons d digits ih =>
    rw [map_cons, unicodeScalars_cons, ih]
    rfl

theorem isDigit_ascii {c : Char} (h : c.isDigit = true) : c.toNat < 128 ∧ c ≠ '\n' := by
  rw [Char.isDigit, and_eq_true, decide_eq_true_iff, decide_eq_true_iff] at h
  have hle : c.toNat ≤ 57 := h.2
  have hge : 48 ≤ c.toNat := h.1
  refine ⟨by omega, ?_⟩
  rintro rfl
  exact absurd hge (by decide)

theorem ofDigits_isSome {digits : List Char} {c : Component} (h : Component.ofDigits digits = some c) :
    digits ≠ [] ∧ digits.all Char.isDigit = true ∧ Nat.ofDigitChars 10 digits 0 < 2 ^ 64 := by
  unfold Component.ofDigits at h
  split_ifs at h with hdigits hlt
  exact ⟨hdigits.1, hdigits.2, hlt⟩

/-- Of the digits of a match, those of ASCII with a small value can be read. -/
theorem parse_iff_fits {text : List Character} (hdigits : ∀ k ∈ text, classes.isDigit k = true) :
    (∃ c, Component.parse text = some c) ↔ Fits text := by
  constructor
  · rintro ⟨c, hparse⟩
    -- a sign is no digit
    have hsign : ∀ {sign : Char} {digits : List Char}, sign ∈ ['+', '-'] → unicodeScalars text = sign :: digits →
        digits.all Char.isDigit = true → False := by
      intro sign digits hmem heq hall
      have hascii : sign.toNat < 128 ∧ sign ≠ '\n' ∧ sign.isDigit = false := by
        rcases mem_cons.mp hmem with rfl | hmem
        · decide
        · rw [mem_singleton.mp hmem]
          decide
      have hmap := Character.map_ofScalar_unicodeScalars text (by
        rw [heq]
        exact forall_mem_cons.mpr ⟨⟨hascii.1, hascii.2.1⟩,
          fun c hc => isDigit_ascii (all_eq_true.mp hall c hc)⟩)
      rw [heq] at hmap
      have hfirst := hdigits (Character.ofScalar sign) (by rw [← hmap]; exact mem_cons_self)
      rw [classes.isDigit_ofScalar sign (decide_eq_true hascii.1), hascii.2.2] at hfirst
      cases hfirst
    unfold Component.parse at hparse
    split at hparse
    · rename_i digits heq
      obtain ⟨-, hall, -⟩ := ofDigits_isSome hparse
      exact (hsign (by decide) heq hall).elim
    · rename_i digits heq
      obtain ⟨hof, -⟩ := filter_eq_some_iff.mp hparse
      obtain ⟨-, hall, -⟩ := ofDigits_isSome hof
      exact (hsign (by decide) heq hall).elim
    · obtain ⟨hne', hall, hlt⟩ := ofDigits_isSome hparse
      have hmap := Character.map_ofScalar_unicodeScalars text
        (fun c hc => isDigit_ascii (all_eq_true.mp hall c hc))
      exact ⟨unicodeScalars text, hmap.symm, hne', hall, hlt⟩
  · rintro ⟨digits, rfl, hne', hall, hlt⟩
    have hof : Component.ofDigits digits = some ⟨Nat.ofDigitChars 10 digits 0, hlt⟩ := by
      unfold Component.ofDigits
      rw [if_pos ⟨hne', hall⟩, dif_pos hlt]
    refine ⟨⟨Nat.ofDigitChars 10 digits 0, hlt⟩, ?_⟩
    unfold Component.parse
    rw [unicodeScalars_map_ofScalar]
    split
    · exact absurd (all_eq_true.mp hall '+' mem_cons_self) (by decide)
    · exact absurd (all_eq_true.mp hall '-' mem_cons_self) (by decide)
    · exact hof

/-! ## What parsing gives -/

/-- An error, or a version that prints the string. -/
def Meets (classes : CharacterClasses) (string : List Character) : Prop :=
  (∃ error, ofString classes string = some (.error error)) ∨
    ∃ v, ofString classes string = some (.ok v) ∧ v.description = string

variable {build major string suffix : List Character} {train : Character}

theorem ofString_split (h : Split classes string major train build suffix) : ofString classes string = (do
      let major ← Component.parse major
      let build ← Component.parse build
      let v : ProductBuildVersion := { major, train, build, buildSuffix := suffix }
      if string ≠ v.description then
        some (.error (Character.ofLiteral "Unable to parse product build version '" ++ string ++
          Character.ofLiteral "' because the input was in an invalid format."))
      else some (.ok v)) := by
  unfold ofString
  rw [wholeMatch_pattern.mpr ⟨major, train, build, suffix, rfl, h⟩]

theorem Split.digits_of (h : Split classes string major train build suffix) :
    (∀ k ∈ major, classes.isDigit k = true) ∧ ∀ k ∈ build, classes.isDigit k = true := by
  cases h with
  | letter hmajor hdigits htrain hletter hbuild hdigits' hsuffix hend => exact ⟨hdigits, hdigits'⟩
  | digits hmajor hdigits htrain hlast hsuffix hend hend' =>
    refine ⟨hdigits, fun k hk => ?_⟩
    rw [mem_singleton.mp hk]
    exact hlast

theorem meets_iff (string : List Character) : Meets classes string ↔
    ∀ major train build suffix, Split classes string major train build suffix → Fits major ∧ Fits build := by
  constructor
  · intro h major train build suffix hsplit
    obtain ⟨hmajor, hbuild⟩ := hsplit.digits_of
    rw [← parse_iff_fits hmajor, ← parse_iff_fits hbuild]
    -- a number that cannot be read is a trap
    have hsome : ofString classes string ≠ none := by
      rcases h with ⟨error, h⟩ | ⟨v, h, -⟩
      · rw [h]
        exact some_ne_none _
      · rw [h]
        exact some_ne_none _
    rw [ofString_split hsplit] at hsome
    cases hparse : Component.parse major with
    | none =>
      rw [hparse] at hsome
      exact absurd rfl hsome
    | some m =>
      cases hparse' : Component.parse build with
      | none =>
        rw [hparse, hparse'] at hsome
        exact absurd rfl hsome
      | some b => exact ⟨⟨m, rfl⟩, b, rfl⟩
  · intro h
    cases hmatch : wholeMatch (pattern classes) string with
    | none =>
      left
      unfold ofString
      rw [hmatch]
      exact ⟨_, rfl⟩
    | some fields =>
      obtain ⟨major, train, build, suffix, rfl, hsplit⟩ := wholeMatch_pattern.mp hmatch
      obtain ⟨hmajor, hbuild⟩ := hsplit.digits_of
      obtain ⟨hfits, hfits'⟩ := h major train build suffix hsplit
      obtain ⟨m, hm⟩ := (parse_iff_fits hmajor).mpr hfits
      obtain ⟨b, hb⟩ := (parse_iff_fits hbuild).mpr hfits'
      unfold Meets
      rw [ofString_split hsplit, hm, hb]
      by_cases heq : string = ({ major := m, train, build := b, buildSuffix := suffix } : ProductBuildVersion).description
      · refine .inr ⟨{ major := m, train, build := b, buildSuffix := suffix }, ?_, heq.symm⟩
        simp only [bind_eq_bind, bind_some]
        rw [if_neg (not_not_intro heq)]
      · left
        simp only [bind_eq_bind, bind_some]
        rw [if_pos heq]
        exact ⟨_, rfl⟩

/-! ## What a version prints -/

theorem description_digits (classes : CharacterClasses) (c : Component) :
    c.description ≠ [] ∧ ∀ k ∈ c.description, classes.isDigit k = true := by
  refine ⟨fun h => Nat.toDigits_ne_nil (map_eq_nil_iff.mp h), fun k hk => ?_⟩
  obtain ⟨d, hd, rfl⟩ := mem_map.mp hk
  have hdigit := Nat.isDigit_of_mem_toDigits (by omega) (le_refl 10) hd
  rw [classes.isDigit_ofScalar d (decide_eq_true (isDigit_ascii hdigit).1)]
  exact hdigit

theorem isAlpha_ascii {c : Char} (h : c.isAlpha = true) : c.toNat < 128 ∧ c.isDigit = false := by
  have hrange : (65 ≤ c.toNat ∧ c.toNat ≤ 90) ∨ (97 ≤ c.toNat ∧ c.toNat ≤ 122) := by
    rcases or_eq_true_iff.mp h with hupper | hlower
    · exact .inl (of_decide_eq_true hupper)
    · obtain ⟨hle, hge⟩ := and_eq_true_iff.mp hlower
      exact .inr ⟨of_decide_eq_true hle, of_decide_eq_true hge⟩
  refine ⟨by omega, ?_⟩
  rw [Char.isDigit, and_eq_false_iff, decide_eq_false_iff_not, decide_eq_false_iff_not]
  right
  intro hle
  have hle' : c.toNat ≤ 57 := hle
  omega

/-- A version with letters for its train and its suffix is parsed from what it prints. -/
theorem ofString_description (classes : CharacterClasses) (major build : Component) {train : Char}
    (htrain : train.isAlpha = true) {suffix : List Char} (hsuffix : suffix.all Char.isAlpha = true) :
    ofString classes (description ⟨major, .ofScalar train, build, suffix.map .ofScalar⟩) =
      some (.ok ⟨major, .ofScalar train, build, suffix.map .ofScalar⟩) := by
  obtain ⟨hmajor, hdigits⟩ := description_digits classes major
  obtain ⟨hbuild, hdigits'⟩ := description_digits classes build
  have hletter : ∀ {c : Char}, c.isAlpha = true → classes.isDigit (.ofScalar c) = false := by
    intro c hc
    rw [classes.isDigit_ofScalar c (decide_eq_true (isAlpha_ascii hc).1)]
    exact (isAlpha_ascii hc).2
  have hword : ∀ k ∈ suffix.map Character.ofScalar, classes.isWord k = true := by
    intro k hk
    obtain ⟨c, hc, rfl⟩ := mem_map.mp hk
    exact classes.isWord_ofScalar c (all_eq_true.mp hsuffix c hc)
  have hend : NoDigit classes (suffix.map Character.ofScalar) := by
    intro k hk
    obtain ⟨c, hc, rfl⟩ := mem_map.mp (mem_of_mem_head? hk)
    exact hletter (all_eq_true.mp hsuffix c hc)
  have hdescription : description ⟨major, .ofScalar train, build, suffix.map .ofScalar⟩ =
      major.description ++ Character.ofScalar train :: (build.description ++ suffix.map Character.ofScalar) := by
    unfold description
    rw [append_assoc, append_assoc]
    rfl
  have hsplit := Split.letter hmajor hdigits (classes.isWord_ofScalar train htrain) (hletter htrain) hbuild hdigits'
    hword hend
  rw [← hdescription] at hsplit
  rw [ofString_split hsplit, Version.parse_description, Version.parse_description]
  simp only [bind_eq_bind, bind_some]
  rw [if_neg (not_not_intro rfl)]

/-- **When parsing does not trap**: exactly for the strings that cannot be split, or whose numbers are digits of ASCII
and small enough; and a version with letters for its train and its suffix is parsed from what it prints. -/
theorem ofString_iff (classes : CharacterClasses) :
    (∀ string, Meets classes string ↔
      ∀ major train build suffix, Split classes string major train build suffix → Fits major ∧ Fits build) ∧
    ∀ (major build : Component) (train : Char) (suffix : List Char), train.isAlpha = true →
      suffix.all Char.isAlpha = true →
      ofString classes (description ⟨major, .ofScalar train, build, suffix.map .ofScalar⟩) =
        some (.ok ⟨major, .ofScalar train, build, suffix.map .ofScalar⟩) :=
  ⟨meets_iff, fun major build _ _ htrain hsuffix => ofString_description classes major build htrain hsuffix⟩

end

/-- The classes restricted to ASCII. -/
def asciiClasses : CharacterClasses where
  isDigit := fun k => k.only?.any Char.isDigit
  isWord := fun k => k.only?.any (fun c => c.isAlphanum || c = '_')
  isWord_of_isDigit := by
    intro k hk
    cases honly : k.only? with
    | none =>
      rw [honly] at hk
      cases hk
    | some c =>
      rw [honly] at hk
      have hdigit : c.isDigit = true := hk
      show (c.isAlphanum || decide (c = '_')) = true
      rw [Char.isAlphanum, hdigit, Bool.or_true, Bool.true_or]
  isDigit_ofScalar := fun _ _ => rfl
  isWord_ofScalar := by
    intro c hc
    show (c.isAlphanum || decide (c = '_')) = true
    rw [Char.isAlphanum, hc, Bool.true_or, Bool.true_or]

/-- Twenty digits are too many. -/
theorem not_meets : ¬ Meets asciiClasses (Character.ofLiteral "99999999999999999999A1") := by
  have htrap : ofString asciiClasses (Character.ofLiteral "99999999999999999999A1") = none := rfl
  rintro (⟨error, h⟩ | ⟨v, h, -⟩)
  · exact absurd (htrap.symm.trans h) (some_ne_none _).symm
  · exact absurd (htrap.symm.trans h) (some_ne_none _).symm

end ProductBuildVersion

end Builra
