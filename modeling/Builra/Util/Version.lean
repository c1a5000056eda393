import Builra.Lib.Separated
import Builra.Util.Character
import Mathlib.Algebra.Group.Nat.Defs
import Mathlib.Data.List.Lex
import Mathlib.Order.Fin.Basic

namespace Builra

open List Nat Bool

/-!
# `Util.Version` — version numbers with any number of components

Versions are compared after zeros were added to the shorter one. With zeros up to any length that is enough for both,
the comparison is that of the lists (`lt_iff`, `beq_iff`), so that the order of versions is that of lists.
-/

/-- A component, an unsigned word. -/
abbrev Component : Type := Fin (2 ^ 64)

structure Version where
  /-- The raw components that make up the version. -/
  rawValue : List Component

/-! ## Numbers in strings -/

/-- `String(c)` -/
def Component.description (c : Component) : List Character := (Nat.toDigits 10 c.val).map Character.ofScalar

/-- The value of decimal digits, if it fits. -/
def Component.ofDigits (digits : List Char) : Option Component :=
  if digits ≠ [] ∧ digits.all Char.isDigit then
    if h : Nat.ofDigitChars 10 digits 0 < 2 ^ 64 then some ⟨Nat.ofDigitChars 10 digits 0, h⟩ else none
  else none

/-- `Component(_:)`: a sign may come first, and nothing but zero is negative and fits. -/
def Component.parse (text : List Character) : Option Component :=
  match unicodeScalars text with
  | '+' :: digits => Component.ofDigits digits
  | '-' :: digits => (Component.ofDigits digits).filter (fun c => c = 0)
  | digits => Component.ofDigits digits

namespace Version

/-! ## The source -/

/-- A set of components with the given number of values. -/
def normalizedComponents (components : List Component) (n : Nat) : List Component :=
  (List.range n).map (fun i => if h : i < components.length then components[i] else 0)

/-- The version of a string. An error is its message. -/
def parse (s : List Character) (maximumNumberOfComponents : Option Nat := none) : Except (List Character) Version := do
  let components ← (Separated.components (.ofScalar '.') s).mapM (fun c =>
    match Component.parse c with
    | some r => .ok r
    | none =>
      .error (Character.ofLiteral "Could not parse version component from: '" ++ c ++ Character.ofLiteral "'"))
  if components.length ≤ 0 then
    throw (Character.ofLiteral "There are no components to parse: '" ++ s ++ Character.ofLiteral "'")
  match maximumNumberOfComponents with
  | some max =>
    if components.length > max then
      throw (Character.ofLiteral "There are too many components: '" ++ s ++
        Character.ofLiteral "', maximumNumberOfComponents: " ++ (Nat.toDigits 10 max).map Character.ofScalar)
    else .ok ⟨normalizedComponents components max⟩
  | none => .ok ⟨components⟩

variable (v : Version)

/-- The version with trailing zeros removed. -/
def zeroTrimmed : Version :=
  if v.rawValue.isEmpty then v
  else
    let index := match v.rawValue.reverse.findIdx? (fun c => c ≠ 0) with
      | some rindex => v.rawValue.length - rindex - 1
      | none => 0
    ⟨v.rawValue.take (index + 1)⟩

/-- The version with trailing zeros added, until it has at least `count` components. -/
def zeroPadded (count : Nat) : Version :=
  if v.rawValue.length < count then ⟨normalizedComponents v.rawValue count⟩ else v

def canonicalDeploymentTargetForm : Version := v.zeroTrimmed.zeroPadded 2

def description : List Character :=
  [Character.ofScalar '.'].intercalate (v.rawValue.map Component.description)

/-- What is fed to the hasher: the components in reverse, without the insignificant ones. -/
def hash : List Component := v.rawValue.reverse.dropWhile (fun c => c = 0)

/-- The components of two versions, with the same number of values. -/
def comparableValue (lhs rhs : Version) : List Component × List Component :=
  if lhs.rawValue.length = rhs.rawValue.length then (lhs.rawValue, rhs.rawValue)
  else
    let n := max lhs.rawValue.length rhs.rawValue.length
    (normalizedComponents lhs.rawValue n, normalizedComponents rhs.rawValue n)

def lexicographicallyPrecedes : List Component → List Component → Bool
  | _, [] => false
  | [], _ :: _ => true
  | a :: l, b :: r => if a < b then true else if b < a then false else lexicographicallyPrecedes l r

instance : BEq Version :=
  ⟨fun lhs rhs => let (l, r) := comparableValue lhs rhs; decide (l = r)⟩

def lt (lhs rhs : Version) : Bool :=
  let (l, r) := comparableValue lhs rhs
  lexicographicallyPrecedes l r

def le (lhs rhs : Version) : Bool :=
  let (l, r) := comparableValue lhs rhs
  lexicographicallyPrecedes l r || l = r

def gt (lhs rhs : Version) : Bool :=
  let (l, r) := comparableValue lhs rhs
  lexicographicallyPrecedes r l

def ge (lhs rhs : Version) : Bool :=
  let (l, r) := comparableValue lhs rhs
  lexicographicallyPrecedes r l || l = r

/-! ## The order of lists -/

theorem lexicographicallyPrecedes_iff (l : List Component) :
    ∀ r : List Component, lexicographicallyPrecedes l r = true ↔ l < r := by
  induction l with
  | nil =>
    intro r
    cases r with
    | nil => exact iff_of_false false_ne_true (not_lt_nil [])
    | cons b r => exact iff_of_true rfl (nil_lt_cons b r)
  | cons a l ih =>
    intro r
    cases r with
    | nil => exact iff_of_false false_ne_true (not_lt_nil _)
    | cons b r =>
      rw [cons_lt_cons_iff, lexicographicallyPrecedes]
      rcases lt_trichotomy a b with hlt | rfl | hgt
      · rw [if_pos hlt]
        exact iff_of_true rfl (.inl hlt)
      · rw [if_neg (lt_irrefl a), if_neg (lt_irrefl a), ih]
        exact ⟨fun h => .inr ⟨rfl, h⟩, fun h => h.elim (fun h => absurd h (lt_irrefl a)) And.right⟩
      · rw [if_neg (not_lt_of_gt hgt), if_pos hgt]
        refine iff_of_false false_ne_true (fun h => ?_)
        rcases h with hlt | ⟨rfl, -⟩
        · exact absurd hlt (not_lt_of_gt hgt)
        · exact absurd hgt (lt_irrefl a)

/-- What is added to lists of one length does not decide. -/
theorem append_lt_append_iff (z : List Component) (l : List Component) :
    ∀ r : List Component, l.length = r.length → (l ++ z < r ++ z ↔ l < r) := by
  induction l with
  | nil =>
    intro r hlength
    obtain rfl := length_eq_zero_iff.mp hlength.symm
    exact iff_of_false (lt_irrefl _) (lt_irrefl _)
  | cons a l ih =>
    intro r hlength
    cases r with
    | nil => cases hlength
    | cons b r =>
      rw [cons_append, cons_append, cons_lt_cons_iff, cons_lt_cons_iff,
        ih r (Nat.succ.inj hlength)]

/-! ## Adding zeros -/

theorem normalizedComponents_eq {c : List Component} {n : Nat} (h : c.length ≤ n) :
    normalizedComponents c n = c ++ List.replicate (n - c.length) 0 := by
  apply ext_getElem?
  intro i
  unfold normalizedComponents
  rw [getElem?_map]
  by_cases hi : i < n
  · rw [getElem?_range hi, Option.map_some]
    by_cases hc : i < c.length
    · rw [dif_pos hc, getElem?_append_left hc, getElem?_eq_getElem hc]
    · have hle := Nat.not_lt.mp hc
      rw [dif_neg hc, getElem?_append_right hle, getElem?_replicate, if_pos (by omega)]
  · rw [getElem?_eq_none (by rw [length_range]; omega), getElem?_eq_none]
    · rfl
    · rw [length_append, length_replicate]
      omega

theorem length_normalizedComponents (c : List Component) (n : Nat) : (normalizedComponents c n).length = n := by
  unfold normalizedComponents
  rw [length_map, length_range]

/-- More zeros are added behind the first ones. -/
theorem normalizedComponents_add {c : List Component} {m n : Nat} (hm : c.length ≤ m) (hn : m ≤ n) :
    normalizedComponents c n = normalizedComponents c m ++ List.replicate (n - m) 0 := by
  rw [normalizedComponents_eq hm, normalizedComponents_eq (hm.trans hn), append_assoc,
    replicate_append_replicate]
  congr 2
  omega

theorem comparableValue_eq (lhs rhs : Version) :
    comparableValue lhs rhs = (normalizedComponents lhs.rawValue (max lhs.rawValue.length rhs.rawValue.length),
      normalizedComponents rhs.rawValue (max lhs.rawValue.length rhs.rawValue.length)) := by
  unfold comparableValue
  split_ifs with hlength
  · rw [hlength, Nat.max_self, normalizedComponents_eq (le_of_eq hlength), normalizedComponents_eq (le_refl _), hlength,
      Nat.sub_self, replicate_zero, append_nil, append_nil]
  · rfl

section

variable {a b c : Version} {n : Nat}

/-- The comparison of two versions is that of their lists, with zeros up to any length that is enough for both. -/
theorem lt_iff (ha : a.rawValue.length ≤ n) (hb : b.rawValue.length ≤ n) :
    lt a b = true ↔ normalizedComponents a.rawValue n < normalizedComponents b.rawValue n := by
  have hmax := Nat.max_le.mpr ⟨ha, hb⟩
  unfold lt
  rw [comparableValue_eq, lexicographicallyPrecedes_iff, normalizedComponents_add (Nat.le_max_left _ _) hmax,
    normalizedComponents_add (Nat.le_max_right _ _) hmax, append_lt_append_iff]
  rw [length_normalizedComponents, length_normalizedComponents]

theorem beq_iff (ha : a.rawValue.length ≤ n) (hb : b.rawValue.length ≤ n) :
    (a == b) = true ↔ normalizedComponents a.rawValue n = normalizedComponents b.rawValue n := by
  have hmax := Nat.max_le.mpr ⟨ha, hb⟩
  have hunfold : (a == b) = decide ((comparableValue a b).1 = (comparableValue a b).2) := rfl
  rw [hunfold, comparableValue_eq, decide_eq_true_iff, normalizedComponents_add (Nat.le_max_left _ _) hmax,
    normalizedComponents_add (Nat.le_max_right _ _) hmax, append_left_inj]

theorem gt_eq (a b : Version) : gt a b = lt b a := by
  unfold gt lt
  rw [comparableValue_eq, comparableValue_eq, Nat.max_comm]

theorem le_iff (a b : Version) : le a b = true ↔ lt a b = true ∨ (a == b) = true := or_eq_true _ _ ▸ Iff.rfl

theorem ge_iff (a b : Version) : ge a b = true ↔ lt b a = true ∨ (a == b) = true := by
  rw [← gt_eq]
  exact or_eq_true _ _ ▸ Iff.rfl

/-- Versions that differ by zeros at the end are equal. -/
theorem beq_of_append {k : Nat} (h : a.rawValue = b.rawValue ++ List.replicate k 0) : (a == b) = true := by
  have hlength : a.rawValue.length = b.rawValue.length + k := by
    rw [h, length_append, length_replicate]
  have hk : a.rawValue.length - b.rawValue.length = k := by omega
  rw [beq_iff (le_refl a.rawValue.length) (by omega), normalizedComponents_eq (le_refl _),
    normalizedComponents_eq (by omega), Nat.sub_self, replicate_zero, append_nil, hk, h]

theorem beq_symm (h : (a == b) = true) : (b == a) = true := by
  rw [beq_iff (Nat.le_max_left _ _) (Nat.le_max_right _ _)] at h
  exact (beq_iff (Nat.le_max_right _ _) (Nat.le_max_left _ _)).mpr h.symm

/-! ## Hashing and trimming -/

theorem dropWhile_replicate_append (k : Nat) (l : List Component) :
    (List.replicate k 0 ++ l).dropWhile (fun c => c = 0) = l.dropWhile (fun c => c = 0) := by
  induction k with
  | zero => rfl
  | succ k ih =>
    rw [replicate_succ, cons_append, dropWhile_cons, if_pos (decide_eq_true rfl), ih]

/-- The zeros that are added are not hashed. -/
theorem hash_normalizedComponents (h : a.rawValue.length ≤ n) :
    hash ⟨normalizedComponents a.rawValue n⟩ = hash a := by
  unfold hash
  rw [normalizedComponents_eq h, reverse_append, reverse_replicate, dropWhile_replicate_append]

theorem hash_eq (h : (a == b) = true) : hash a = hash b := by
  rw [beq_iff (Nat.le_max_left _ _) (Nat.le_max_right _ _)] at h
  calc hash a = hash ⟨normalizedComponents a.rawValue _⟩ := (hash_normalizedComponents (Nat.le_max_left _ _)).symm
    _ = hash ⟨normalizedComponents b.rawValue _⟩ := by rw [h]
    _ = hash b := hash_normalizedComponents (Nat.le_max_right _ _)

/-- What is trimmed are zeros. -/
theorem exists_zeroTrimmed (a : Version) : ∃ k, a.rawValue = a.zeroTrimmed.rawValue ++ List.replicate k 0 := by
  unfold zeroTrimmed
  split_ifs with hempty
  · exact ⟨0, by rw [replicate_zero, append_nil]⟩
  · dsimp only
    -- all components behind the index are zero
    have hzero : ∀ index, (∀ i (hi : i < a.rawValue.length), index < i → a.rawValue[i] = 0) →
        ∃ k, a.rawValue = a.rawValue.take (index + 1) ++ List.replicate k 0 := by
      intro index hall
      refine ⟨(a.rawValue.drop (index + 1)).length, ?_⟩
      have hdrop : a.rawValue.drop (index + 1) = List.replicate (a.rawValue.drop (index + 1)).length 0 := by
        rw [eq_replicate_iff]
        refine ⟨rfl, fun c hc => ?_⟩
        obtain ⟨i, hi, rfl⟩ := getElem_of_mem hc
        rw [length_drop] at hi
        rw [getElem_drop]
        exact hall _ (by omega) (by omega)
      rw [← hdrop, take_append_drop]
    cases hfind : a.rawValue.reverse.findIdx? (fun c => c ≠ 0) with
    | none =>
      apply hzero
      intro i hi _
      have hnone := findIdx?_eq_none_iff.mp hfind a.rawValue[i] (mem_reverse.mpr (getElem_mem hi))
      simpa using hnone
    | some rindex =>
      obtain ⟨hlt, -, hbefore⟩ := findIdx?_eq_some_iff_getElem.mp hfind
      have hreverse : ∀ n i : Nat, i < n → n - rindex - 1 < i → n - 1 - i < rindex ∧ n - 1 - (n - 1 - i) = i :=
        fun n i hi hindex => by omega
      apply hzero
      intro i hi hindex
      obtain ⟨hj, hback⟩ := hreverse a.rawValue.length i hi hindex
      have hzero := hbefore (a.rawValue.length - 1 - i) hj
      rw [getElem_reverse] at hzero
      simpa [hback] using hzero

theorem zeroTrimmed_beq (a : Version) : (a.zeroTrimmed == a) = true := by
  obtain ⟨k, h⟩ := exists_zeroTrimmed a
  exact beq_symm (beq_of_append h)

theorem zeroPadded_beq (a : Version) (count : Nat) : (a.zeroPadded count == a) = true := by
  unfold zeroPadded
  split_ifs with hlt
  · exact beq_of_append (normalizedComponents_eq (le_of_lt hlt))
  · exact beq_of_append (k := 0) (by rw [replicate_zero, append_nil])

theorem beq_trans (hab : (a == b) = true) (hbc : (b == c) = true) : (a == c) = true := by
  have ha := Nat.le_max_left a.rawValue.length (max b.rawValue.length c.rawValue.length)
  have hbc' := Nat.le_max_right a.rawValue.length (max b.rawValue.length c.rawValue.length)
  have hb := (Nat.le_max_left b.rawValue.length c.rawValue.length).trans hbc'
  have hc := (Nat.le_max_right b.rawValue.length c.rawValue.length).trans hbc'
  rw [beq_iff ha hb] at hab
  rw [beq_iff hb hc] at hbc
  exact (beq_iff ha hc).mpr (hab.trans hbc)

/-! ## Parsing -/

theorem parse_description (c : Component) : Component.parse c.description = some c := by
  have hscalars : unicodeScalars c.description = Nat.toDigits 10 c.val := by
    unfold Component.description
    generalize Nat.toDigits 10 c.val = digits
    induction digits with
    | nil => rfl
    | cons d digits ih =>
      rw [map_cons, unicodeScalars_cons, ih]
      rfl
  have hdigit : ∀ d ∈ Nat.toDigits 10 c.val, d.isDigit = true :=
    fun d hd => isDigit_of_mem_toDigits (by omega) (le_refl _) hd
  have hofDigits : Component.ofDigits (Nat.toDigits 10 c.val) = some c := by
    unfold Component.ofDigits
    rw [if_pos ⟨toDigits_ne_nil, all_eq_true.mpr hdigit⟩, dif_pos (by
      rw [ofDigitChars_ten_toDigits]
      exact c.isLt)]
    exact congrArg some (Fin.ext ofDigitChars_ten_toDigits)
  unfold Component.parse
  rw [hscalars]
  split
  · rename_i digits heq
    have hplus := hdigit '+' (heq ▸ mem_cons_self)
    exact absurd hplus (by decide)
  · rename_i digits heq
    have hminus := hdigit '-' (heq ▸ mem_cons_self)
    exact absurd hminus (by decide)
  · exact hofDigits

theorem components_description (a : Version) (hne : a.rawValue ≠ []) :
    Separated.components (Character.ofScalar '.') a.description = a.rawValue.map Component.description := by
  refine Separated.components_intercalate (fun part hpart => ?_) (fun h => hne (map_eq_nil_iff.mp h))
  obtain ⟨c, -, rfl⟩ := mem_map.mp hpart
  refine ⟨fun h => toDigits_ne_nil (map_eq_nil_iff.mp h), fun hdot => ?_⟩
  obtain ⟨d, hd, heq⟩ := mem_map.mp hdot
  have hdigit := isDigit_of_mem_toDigits (by omega) (le_refl 10) hd
  rw [Character.ofScalar_injective heq] at hdigit
  exact absurd hdigit (by decide)

/-- The description of a version gives the version. -/
theorem parse_of_description (a : Version) (hne : a.rawValue ≠ []) : parse a.description = .ok a := by
  have hmapM : ∀ cs : List Component, (cs.map Component.description).mapM (m := Except (List Character)) (fun c =>
      match Component.parse c with
      | some r => .ok r
      | none =>
        .error (Character.ofLiteral "Could not parse version component from: '" ++ c ++ Character.ofLiteral "'")) =
      .ok cs := by
    intro cs
    induction cs with
    | nil => rfl
    | cons c cs ih =>
      rw [map_cons, mapM_cons, ih, parse_description]
      rfl
  unfold parse
  rw [components_description a hne, hmapM]
  show (if a.rawValue.length ≤ 0 then _ else _) = _
  rw [if_neg (fun h => hne (length_eq_zero_iff.mp (le_zero.mp h)))]

/-- **Versions are ordered**: exactly one of `a < b`, `a == b` and `b < a` holds, `<` and `==` are transitive and respect
each other, the other relations are derived from them, equal versions are hashed alike, trimming and padding give equal
versions, and so does parsing what a version prints. -/
theorem version_order (a b c : Version) :
    ((lt a b = true ∧ (a == b) = false ∧ lt b a = false) ∨ (lt a b = false ∧ (a == b) = true ∧ lt b a = false) ∨
        (lt a b = false ∧ (a == b) = false ∧ lt b a = true)) ∧
      (lt a b = true → lt b c = true → lt a c = true) ∧ ((a == b) = true → (b == c) = true → (a == c) = true) ∧
      ((a == b) = true → lt a c = lt b c ∧ lt c a = lt c b) ∧
      (le a b = true ↔ lt a b = true ∨ (a == b) = true) ∧ gt a b = lt b a ∧
      (ge a b = true ↔ lt b a = true ∨ (a == b) = true) ∧ ((a == b) = true → hash a = hash b) ∧
      (a.zeroTrimmed == a) = true ∧ (∀ count, (a.zeroPadded count == a) = true) ∧
      (a.canonicalDeploymentTargetForm == a) = true ∧ (a.rawValue ≠ [] → parse a.description = .ok a) := by
  -- zeros up to a length that is enough for all three
  obtain ⟨n, ha, hb, hc⟩ : ∃ n, a.rawValue.length ≤ n ∧ b.rawValue.length ≤ n ∧ c.rawValue.length ≤ n :=
    ⟨a.rawValue.length + b.rawValue.length + c.rawValue.length, by omega, by omega, by omega⟩
  refine ⟨?_, fun hab hbc => ?_, beq_trans, fun hab => ?_, le_iff a b, gt_eq a b, ge_iff a b, hash_eq, zeroTrimmed_beq a,
    zeroPadded_beq a, beq_trans (zeroPadded_beq _ 2) (zeroTrimmed_beq a), parse_of_description a⟩
  · simp only [← not_eq_true]
    rw [lt_iff ha hb, lt_iff hb ha, beq_iff ha hb]
    rcases lt_trichotomy (normalizedComponents a.rawValue n) (normalizedComponents b.rawValue n) with hlt | heq | hgt
    · exact .inl ⟨hlt, hlt.ne, not_lt_of_gt hlt⟩
    · exact .inr (.inl ⟨not_lt_of_ge (le_of_eq heq.symm), heq, not_lt_of_ge (le_of_eq heq)⟩)
    · exact .inr (.inr ⟨not_lt_of_gt hgt, hgt.ne', hgt⟩)
  · rw [lt_iff ha hb] at hab
    rw [lt_iff hb hc] at hbc
    exact (lt_iff ha hc).mpr (hab.trans hbc)
  · rw [beq_iff ha hb] at hab
    constructor
    · rw [Bool.eq_iff_iff, lt_iff ha hc, lt_iff hb hc, hab]
    · rw [Bool.eq_iff_iff, lt_iff hc ha, lt_iff hc hb, hab]

end

end Version

end Builra
