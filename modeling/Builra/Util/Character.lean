import Mathlib.Data.List.Lemmas

namespace Builra

open List

/-!
# `Util.Character` — the characters of strings

A character is a cluster of one or more Unicode scalars. A string is the sequence of its characters; `unicodeScalars` is
the text that other programs read.
-/

def Character.isASCIIScalar (c : Char) : Bool := c.toNat < 128

def Character.isControlScalar (c : Char) : Bool := c.toNat < 32 || c.toNat = 127

/-- A character. More than one scalar is a line end, or a cluster of marks around one scalar: no control character is
part of it, and at most one of the scalars is in ASCII. -/
structure Character where
  scalars : List Char
  isCluster : scalars.length = 1 ∨ scalars = ['\r', '\n'] ∨
    (2 ≤ scalars.length ∧ (scalars.filter Character.isASCIIScalar).length ≤ 1 ∧
      ∀ c ∈ scalars, Character.isControlScalar c = false)
deriving DecidableEq

namespace Character

def ofScalar (c : Char) : Character where
  scalars := [c]
  isCluster := .inl rfl

def lineEnd : Character where
  scalars := ['\r', '\n']
  isCluster := .inr (.inl rfl)

/-- The string of a literal without line ends. -/
def ofLiteral (text : String) : List Character := text.toList.map ofScalar

/-- The scalar of a character that has only one. -/
def only? (k : Character) : Option Char :=
  match k.scalars with
  | [c] => some c
  | _ => none

/-- The scalars with the property `White_Space`. -/
def isWhitespaceScalar (c : Char) : Bool :=
  (9 ≤ c.toNat && c.toNat ≤ 13) || (0x2000 ≤ c.toNat && c.toNat ≤ 0x200A) ||
    c.toNat ∈ [0x20, 0x85, 0xA0, 0x1680, 0x2028, 0x2029, 0x202F, 0x205F, 0x3000]

/-- The first scalar decides. -/
def isWhitespace (k : Character) : Bool := k.scalars.head?.any isWhitespaceScalar

variable {k k' : Character} {c : Char}

@[simp] theorem scalars_ofScalar (c : Char) : (ofScalar c).scalars = [c] := rfl

@[simp] theorem only?_ofScalar (c : Char) : (ofScalar c).only? = some c := rfl

theorem ext (h : k.scalars = k'.scalars) : k = k' := by
  cases k
  cases k'
  obtain rfl : _ = _ := h
  rfl

theorem ofScalar_injective {c d : Char} (h : ofScalar c = ofScalar d) : c = d := by
  injection h with h
  exact singleton_injective h

theorem only?_eq_some : k.only? = some c ↔ k = ofScalar c := by
  constructor
  · intro h
    unfold only? at h
    split at h
    case h_1 d hd =>
      cases h
      exact ext hd
    case h_2 => exact absurd h (by simp)
  · rintro rfl
    rfl

theorem eq_ofScalar_or (k : Character) : (∃ c, k = ofScalar c) ∨ k.only? = none := by
  cases h : k.only? with
  | none => exact .inr rfl
  | some c => exact .inl ⟨c, only?_eq_some.mp h⟩

/-- A character of several scalars is a line end, or has at most one scalar in ASCII, which is printable. -/
theorem scalars_of_only?_eq_none (h : k.only? = none) :
    k.scalars = ['\r', '\n'] ∨ (2 ≤ k.scalars.length ∧ ∀ c ∈ k.scalars, 128 ≤ c.toNat) ∨
      ∃ before c after, k.scalars = before ++ c :: after ∧ c.toNat < 128 ∧ isControlScalar c = false ∧
        (before ≠ [] ∨ after ≠ []) ∧ (∀ d ∈ before, 128 ≤ d.toNat) ∧ ∀ d ∈ after, 128 ≤ d.toNat := by
  rcases k.isCluster with hone | hline | ⟨hlength, hascii, hcontrol⟩
  · obtain ⟨c, hc⟩ := length_eq_one_iff.mp hone
    rw [only?, hc] at h
    exact absurd h (by simp)
  · exact .inl hline
  · right
    by_cases hall : ∀ c ∈ k.scalars, 128 ≤ c.toNat
    · exact .inl ⟨hlength, hall⟩
    · right
      push Not at hall
      obtain ⟨c, hmem, hc⟩ := hall
      obtain ⟨before, after, hscalars⟩ := append_of_mem hmem
      have hnone : ∀ l : List Char, (l.filter isASCIIScalar).length = 0 → ∀ d ∈ l, 128 ≤ d.toNat := by
        intro l hl d hd
        have hd := filter_eq_nil_iff.mp (length_eq_zero_iff.mp hl) d hd
        simpa [isASCIIScalar] using hd
      have hcount : (before.filter isASCIIScalar).length + 1 + (after.filter isASCIIScalar).length ≤ 1 := by
        rw [hscalars, filter_append, filter_cons_of_pos (by simpa [isASCIIScalar] using hc)] at hascii
        simp only [length_append, length_cons] at hascii
        omega
      refine ⟨before, c, after, hscalars, hc, hcontrol c hmem, ?_, hnone before (by omega), hnone after (by omega)⟩
      by_contra hboth
      push Not at hboth
      rw [hscalars, hboth.1, hboth.2] at hlength
      exact absurd hlength (by simp)

end Character

/-- The text of a string. -/
def unicodeScalars (string : List Character) : List Char := string.flatMap Character.scalars

@[simp] theorem unicodeScalars_nil : unicodeScalars [] = [] := rfl

@[simp] theorem unicodeScalars_cons (k : Character) (string : List Character) :
    unicodeScalars (k :: string) = k.scalars ++ unicodeScalars string := rfl

@[simp] theorem unicodeScalars_append (s t : List Character) :
    unicodeScalars (s ++ t) = unicodeScalars s ++ unicodeScalars t := flatMap_append

/-- A string of scalars in ASCII without line ends has a character for each of them. -/
theorem Character.map_ofScalar_unicodeScalars (string : List Character)
    (h : ∀ c ∈ unicodeScalars string, c.toNat < 128 ∧ c ≠ '\n') :
    (unicodeScalars string).map Character.ofScalar = string := by
  induction string with
  | nil => rfl
  | cons k string ih =>
    rw [unicodeScalars_cons, forall_mem_append] at h
    obtain ⟨hk, hstring⟩ := h
    rw [unicodeScalars_cons, map_append, ih hstring]
    rcases eq_ofScalar_or k with ⟨c, rfl⟩ | hcluster
    · rfl
    · -- a character of several scalars has a newline or a mark
      have hnotWide : ∀ c ∈ k.scalars, ¬ 128 ≤ c.toNat := fun c hc => Nat.not_le_of_lt (hk c hc).1
      rcases scalars_of_only?_eq_none hcluster with
        hline | ⟨hlength, hwide⟩ | ⟨before, c, after, hscalars, -, -, hne, hbefore, hafter⟩
      · exact absurd rfl (hk '\n' (by rw [hline]; decide)).2
      · obtain ⟨c, hc⟩ := exists_mem_of_length_pos (Nat.lt_of_lt_of_le Nat.zero_lt_two hlength)
        exact absurd (hwide c hc) (hnotWide c hc)
      · have hmem : ∀ d ∈ before ++ after, d ∈ k.scalars := by
          intro d hd
          rw [hscalars]
          simp only [mem_append, mem_cons] at hd ⊢
          exact hd.imp_right .inr
        obtain ⟨d, hd⟩ : ∃ d, d ∈ before ++ after := by
          apply exists_mem_of_ne_nil
          simpa [or_iff_not_imp_left] using hne
        have hwide : 128 ≤ d.toNat := (mem_append.mp hd).elim (hbefore d) (hafter d)
        exact absurd hwide (hnotWide d (hmem d hd))

end Builra
