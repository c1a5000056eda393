import Mathlib.Data.List.Basic

/-!
# `Lib.Utf8` — strings as bytes

The bytes of a string in UTF-8, and the string that any bytes are decoded to: what is not well formed is replaced by
U+FFFD, one for each longest part that could be the beginning of a character. Decoding what was encoded gives the
string back, with and without replacements.
-/

namespace Utf8

open List

variable (s : String)

def utf8 : List UInt8 := s.toList.flatMap String.utf8EncodeChar

/-- The second byte after a first byte that begins a character of several bytes. -/
def continues (first second : UInt8) : Bool :=
  if 0xc2 ≤ first ∧ first ≤ 0xdf then 0x80 ≤ second ∧ second ≤ 0xbf
  else if first = 0xe0 then 0xa0 ≤ second ∧ second ≤ 0xbf
  else if first = 0xed then 0x80 ≤ second ∧ second ≤ 0x9f
  else if 0xe1 ≤ first ∧ first ≤ 0xef then 0x80 ≤ second ∧ second ≤ 0xbf
  else if first = 0xf0 then 0x90 ≤ second ∧ second ≤ 0xbf
  else if 0xf1 ≤ first ∧ first ≤ 0xf3 then 0x80 ≤ second ∧ second ≤ 0xbf
  else if first = 0xf4 then 0x80 ≤ second ∧ second ≤ 0x8f
  else false

/-- The length of what is replaced where there is no character: at least one byte, and more if they could begin one. -/
def illFormedLength : List UInt8 → Nat
  | first :: second :: third :: _ =>
    if continues first second then
      if 0xf0 ≤ first ∧ 0x80 ≤ third ∧ third ≤ 0xbf then 3 else 2
    else 1
  | [first, second] => if continues first second then 2 else 1
  | _ => 1

theorem illFormedLength_pos (l : List UInt8) : 0 < illFormedLength l := by
  unfold illFormedLength
  split
  · split
    · split <;> decide
    · decide
  · split <;> decide
  · decide

/-- The characters that the bytes are decoded to. -/
def decodeChars (l : List UInt8) : List Char :=
  if l = [] then []
  else
    match l.toByteArray.utf8DecodeChar? 0 with
    | some c => c :: decodeChars (l.drop c.utf8Size)
    | none => '\uFFFD' :: decodeChars (l.drop (illFormedLength l))
termination_by l.length
decreasing_by
  · have hpos := length_pos_of_ne_nil (by assumption)
    have hsize := Char.utf8Size_pos c
    rw [length_drop]
    omega
  · have hpos := length_pos_of_ne_nil (by assumption)
    have hlength := illFormedLength_pos l
    rw [length_drop]
    omega

/-- `String(decoding:as:)`. -/
def decoding (l : List UInt8) : String := String.ofList (decodeChars l)

theorem decodeChars_encode (chars : List Char) : decodeChars (chars.flatMap String.utf8EncodeChar) = chars := by
  induction chars with
  | nil =>
    rw [decodeChars]
    rfl
  | cons c chars ih =>
    have hlength : (String.utf8EncodeChar c).length = c.utf8Size := String.length_utf8EncodeChar c
    have hne : (c :: chars).flatMap String.utf8EncodeChar ≠ [] := by
      intro h
      have hsize := Char.utf8Size_pos c
      rw [flatMap_cons, append_eq_nil_iff] at h
      rw [h.1] at hlength
      rw [← hlength] at hsize
      exact absurd hsize (by simp)
    have hfirst : ((c :: chars).flatMap String.utf8EncodeChar).toByteArray.utf8DecodeChar? 0 = some c := by
      rw [flatMap_cons, toByteArray_append]
      exact ByteArray.utf8DecodeChar?_utf8EncodeChar_append
    have hrest : ((c :: chars).flatMap String.utf8EncodeChar).drop c.utf8Size =
        chars.flatMap String.utf8EncodeChar := by
      rw [flatMap_cons, ← hlength, drop_left]
    rw [decodeChars, if_neg hne, hfirst]
    simp only [hrest, ih]

/-- **A string is decoded from its own bytes.** -/
theorem decoding_utf8 : decoding (utf8 s) = s := by
  rw [decoding, utf8, decodeChars_encode, String.ofList_toList]

/-! ## Decoding what is well formed only -/

theorem toByteArray_utf8 : (utf8 s).toByteArray = s.toByteArray := by
  show s.toList.utf8Encode = s.toByteArray
  exact String.utf8Encode_toList

theorem fromUTF8?_utf8 : String.fromUTF8? (utf8 s).toByteArray = some s := by
  rw [toByteArray_utf8, String.fromUTF8?, dif_pos s.isValidUTF8]
  rfl

/-- Only the empty string has no bytes. -/
theorem eq_nil_of_fromUTF8? {l : List UInt8} (h : String.fromUTF8? l.toByteArray = some "") : l = [] := by
  unfold String.fromUTF8? at h
  split_ifs at h with hvalid
  have heq := congrArg String.toByteArray (Option.some.inj h)
  have hlist : l.toByteArray.data.toList = [] := congrArg (fun b => b.data.toList) heq
  simpa using hlist

theorem fromUTF8?_nil : String.fromUTF8? [].toByteArray = some "" := fromUTF8?_utf8 ""

/-! ## Null bytes -/

theorem ofNat_ne_zero {n : Nat} (hpos : 0 < n) (hlt : n < 256) : (0 : UInt8) ≠ UInt8.ofNat n := by
  intro h
  have hnat := congrArg UInt8.toNat h
  rw [UInt8.toNat_ofNat', Nat.mod_eq_of_lt hlt] at hnat
  exact absurd hnat (Nat.ne_of_lt hpos)

theorem zero_mem_utf8EncodeChar {c : Char} : 0 ∈ String.utf8EncodeChar c ↔ c = '\x00' := by
  constructor
  · intro h
    by_cases hsmall : c.val.toNat ≤ 0x7f
    · simp only [String.utf8EncodeChar, if_pos hsmall, mem_singleton] at h
      by_contra hne
      have hpos : 0 < c.val.toNat := by
        refine Nat.pos_of_ne_zero fun hzero => hne (Char.ext ?_)
        exact UInt32.toNat_inj.mp hzero
      exact ofNat_ne_zero hpos (by omega) h
    · -- every byte of a longer encoding has its first bit set
      simp only [String.utf8EncodeChar, if_neg hsmall] at h
      split_ifs at h with htwo hthree
      · rcases mem_pair.mp h with h | h
        · exact absurd h (ofNat_ne_zero (by omega) (by omega))
        · exact absurd h (ofNat_ne_zero (by omega) (by omega))
      · simp only [mem_cons, not_mem_nil, or_false] at h
        rcases h with h | h | h
        · exact absurd h (ofNat_ne_zero (by omega) (by omega))
        · exact absurd h (ofNat_ne_zero (by omega) (by omega))
        · exact absurd h (ofNat_ne_zero (by omega) (by omega))
      · simp only [mem_cons, not_mem_nil, or_false] at h
        rcases h with h | h | h | h
        · exact absurd h (ofNat_ne_zero (by omega) (by omega))
        · exact absurd h (ofNat_ne_zero (by omega) (by omega))
        · exact absurd h (ofNat_ne_zero (by omega) (by omega))
        · exact absurd h (ofNat_ne_zero (by omega) (by omega))
  · rintro rfl
    exact mem_singleton_self _

/-- Only the null character is encoded with a null byte. -/
theorem zero_mem_utf8 {s : String} : 0 ∈ utf8 s ↔ '\x00' ∈ s.toList := by
  rw [utf8, mem_flatMap]
  constructor
  · rintro ⟨c, hc, hzero⟩
    rw [← zero_mem_utf8EncodeChar.mp hzero]
    exact hc
  · intro h
    exact ⟨'\x00', h, zero_mem_utf8EncodeChar.mpr rfl⟩

end Utf8
