import Mathlib.Data.BitVec
import Mathlib.Tactic.Ring

/-!
# `Lib.Codec` — binary formats that can be read back

A reader consumes a prefix of a byte string. A coding is lawful if reading what was written gives the value
back and leaves exactly what follows; lawful codings compose, and their encodings are prefix-free.
-/

namespace Codec

open List

/-- A reader consumes a prefix of its input; none if the input is not well formed. -/
abbrev Reader (α : Type) := StateT (List UInt8) Option α

/-- How values of a type are written and read. -/
class Coding (α : Type) where
  encode : α → List UInt8
  decode : Reader α

export Coding (encode decode)

/-- Reading what was written gives the value back and leaves what follows. -/
class LawfulCoding (α : Type) [Coding α] : Prop where
  decode_encode : ∀ (a : α) (rest : List UInt8), (decode : Reader α).run (encode a ++ rest) = some (a, rest)

variable {α β : Type}

@[simp]
theorem run_decode [Coding α] [LawfulCoding α] (a : α) (rest : List UInt8) :
    (decode : Reader α).run (encode a ++ rest) = some (a, rest) :=
  LawfulCoding.decode_encode a rest

/-- Nothing is left when nothing follows. -/
@[simp]
theorem run_decode_nil [Coding α] [LawfulCoding α] (a : α) :
    (decode : Reader α).run (encode a) = some (a, []) := by
  simpa using run_decode a []

/-- Encodings are prefix-free. -/
theorem encode_append_inj [Coding α] [LawfulCoding α] {a b : α} {rest rest' : List UInt8} :
    encode a ++ rest = encode b ++ rest' ↔ a = b ∧ rest = rest' := by
  constructor
  · intro h
    have hread := run_decode a rest
    rw [h, run_decode, Option.some_inj, Prod.mk.injEq] at hread
    exact ⟨hread.1.symm, hread.2.symm⟩
  · rintro ⟨rfl, rfl⟩
    rfl

/-- Reading in sequence. -/
theorem run_bind_of {read : Reader α} {next : α → Reader β} {input rest : List UInt8} {a : α}
    (h : read.run input = some (a, rest)) : (read >>= next).run input = (next a).run rest := by
  simp [StateT.run_bind, h]

/-- Two values written one after the other. -/
theorem run_pair {γ : Type} [Coding α] [LawfulCoding α] [Coding β] [LawfulCoding β] (join : α → β → γ)
    (a : α) (b : β) (rest : List UInt8) :
    StateT.run (do
      let x : α ← decode
      let y : β ← decode
      return join x y) ((encode a ++ encode b) ++ rest) = some (join a b, rest) := by
  rw [append_assoc, run_bind_of (run_decode a _), run_bind_of (run_decode b _)]
  rfl

/-- Read a value that is only there if `p` holds. -/
def presentIf (p : Bool) (read : Reader α) (absent : α) : Reader α := if p then read else pure absent

/-- A value that is only written if `p` holds, and has a fixed value otherwise. -/
theorem run_presentIf {p : Bool} {read : Reader α} {a absent : α} {written rest : List UInt8}
    (hread : read.run (written ++ rest) = some (a, rest)) (habsent : p = false → a = absent) :
    (presentIf p read absent).run ((if p then written else []) ++ rest) = some (a, rest) := by
  cases p with
  | true => exact hread
  | false =>
    rw [habsent rfl]
    rfl

/-! ## Bytes -/

/-- The next byte. -/
def byte : Reader UInt8 := do
  match ← get with
  | [] => failure
  | b :: rest => set rest; return b

@[simp]
theorem run_byte (b : UInt8) (rest : List UInt8) : byte.run (b :: rest) = some (b, rest) := rfl

/-- The next `count` bytes. -/
def bytes (count : Nat) : Reader (List UInt8) := do
  let input ← get
  if count ≤ input.length then set (input.drop count); return input.take count else failure

theorem run_bytes (l rest : List UInt8) : (bytes l.length).run (l ++ rest) = some (l, rest) := by
  have h : (bytes l.length).run (l ++ rest) =
      some ((l ++ rest).take l.length, (l ++ rest).drop l.length) := by
    unfold bytes
    simp
  rw [h, take_left, drop_left]

/-! ## Repetition -/

/-- Read `count` values. -/
def repeated [Coding α] : Nat → Reader (List α)
  | 0 => return []
  | count + 1 => do
    let a ← decode
    let rest ← repeated count
    return a :: rest

/-- A list of values is read back when its length is known. -/
theorem run_repeated [Coding α] [LawfulCoding α] (l : List α) (rest : List UInt8) :
    (repeated l.length).run (l.flatMap encode ++ rest) = some (l, rest) := by
  induction l generalizing rest with
  | nil => rfl
  | cons a l ih =>
    have hinput : (a :: l).flatMap encode ++ rest = encode a ++ (l.flatMap encode ++ rest) := by simp
    rw [length_cons, repeated, hinput, run_bind_of (run_decode a _), run_bind_of (ih rest)]
    rfl

/-- Fill an array of fixed length. -/
def filled [Coding α] : (count : Nat) → Reader (Fin count → α)
  | 0 => return Fin.elim0
  | count + 1 => do
    let a ← decode
    let rest ← filled count
    return Fin.cons a rest

/-- An array of fixed length is read back. -/
theorem run_filled [Coding α] [LawfulCoding α] {count : Nat} (f : Fin count → α) (rest : List UInt8) :
    (filled count).run ((List.ofFn f).flatMap encode ++ rest) = some (f, rest) := by
  induction count with
  | zero =>
    have hf : f = Fin.elim0 := funext (fun i => i.elim0)
    rw [hf]
    rfl
  | succ count ih =>
    have hinput : (List.ofFn f).flatMap encode ++ rest =
        encode (f 0) ++ ((List.ofFn (Fin.tail f)).flatMap encode ++ rest) := by
      simp only [ofFn_succ, flatMap_cons, append_assoc]
      rfl
    rw [filled, hinput, run_bind_of (run_decode (f 0) _), run_bind_of (ih (Fin.tail f))]
    exact congrArg (fun g => some (g, rest)) (Fin.cons_self_tail f)

/-! ## Numbers -/

/-- A word is its two halves put together. -/
theorem join_halves {n : Nat} (x : BitVec (n + n)) :
    (x.setWidth n).setWidth (n + n) ||| ((x >>> n).setWidth n).setWidth (n + n) <<< n = x := by
  apply BitVec.eq_of_getLsbD_eq
  intro i hi
  simp only [BitVec.getLsbD_or, BitVec.getLsbD_setWidth, BitVec.getLsbD_shiftLeft,
    BitVec.getLsbD_ushiftRight]
  by_cases hlt : i < n
  · simp [hlt, hi]
  · have hsub : i - n < n := by omega
    have hadd : n + (i - n) = i := by omega
    have hsub' : i - n < n + n := by omega
    simp [hlt, hi, hsub, hsub', hadd]

/-- The number that two halves stand for. -/
theorem toNat_join {n : Nat} (low high : BitVec n) :
    (low.setWidth (n + n) ||| high.setWidth (n + n) <<< n).toNat = low.toNat + 2 ^ n * high.toNat := by
  have hlow : low.toNat < 2 ^ n := low.isLt
  have hhigh : high.toNat < 2 ^ n := high.isLt
  have hpow : (2 : Nat) ^ (n + n) = 2 ^ n * 2 ^ n := Nat.pow_add 2 n n
  have hlow' : low.toNat < 2 ^ (n + n) := by
    rw [hpow]
    exact lt_of_lt_of_le hlow (Nat.le_mul_of_pos_right _ (Nat.two_pow_pos n))
  have hhigh' : high.toNat < 2 ^ (n + n) := by
    rw [hpow]
    exact lt_of_lt_of_le hhigh (Nat.le_mul_of_pos_right _ (Nat.two_pow_pos n))
  have hshift : high.toNat * 2 ^ n < 2 ^ (n + n) := by
    rw [hpow]
    exact Nat.mul_lt_mul_of_pos_right hhigh (Nat.two_pow_pos n)
  rw [BitVec.toNat_or, BitVec.toNat_shiftLeft, BitVec.toNat_setWidth, BitVec.toNat_setWidth,
    Nat.mod_eq_of_lt hlow', Nat.mod_eq_of_lt hhigh', Nat.shiftLeft_eq, Nat.mod_eq_of_lt hshift, Nat.or_comm,
    ← Nat.shiftLeft_eq, ← Nat.shiftLeft_add_eq_or_of_lt hlow, Nat.shiftLeft_eq]
  ring

/-! ## Numbers of several bytes -/

/-- The lowest `n` bytes of a number, the lowest first. -/
def littleEndian : Nat → Nat → List UInt8
  | 0, _ => []
  | n + 1, x => UInt8.ofNat x :: littleEndian n (x >>> 8)

def ofLittleEndian : List UInt8 → Nat
  | [] => 0
  | b :: l => b.toNat + 256 * ofLittleEndian l

/-- The number with its `n` bytes in reverse order. -/
def byteSwapped (n x : Nat) : Nat := ofLittleEndian (littleEndian n x).reverse

/-- A number of `n` bytes, the highest first. -/
def readBigEndian : Nat → Nat → Reader Nat
  | 0, result => return result
  | n + 1, result => do
    let b ← byte
    readBigEndian n (result <<< 8 ||| b.toNat)

@[simp]
theorem length_littleEndian (n x : Nat) : (littleEndian n x).length = n := by
  induction n generalizing x with
  | zero => rfl
  | succ n ih => rw [littleEndian, length_cons, ih]

theorem ofLittleEndian_littleEndian (n x : Nat) : ofLittleEndian (littleEndian n x) = x % 256 ^ n := by
  induction n generalizing x with
  | zero => simp [littleEndian, ofLittleEndian, Nat.mod_one]
  | succ n ih =>
    have hpow : 256 ^ (n + 1) = 256 * 256 ^ n := Nat.pow_succ'
    rw [littleEndian, ofLittleEndian, ih, Nat.shiftRight_eq_div_pow, UInt8.toNat_ofNat', hpow, Nat.mod_mul]

theorem littleEndian_ofLittleEndian (l : List UInt8) : littleEndian l.length (ofLittleEndian l) = l := by
  induction l with
  | nil => rfl
  | cons b l ih =>
    have hb : b.toNat < 256 := b.toNat_lt
    have hlow : UInt8.ofNat (b.toNat + 256 * ofLittleEndian l) = b := by
      apply UInt8.toNat_inj.mp
      rw [UInt8.toNat_ofNat']
      omega
    have hhigh : (b.toNat + 256 * ofLittleEndian l) >>> 8 = ofLittleEndian l := by
      rw [Nat.shiftRight_eq_div_pow]
      omega
    rw [length_cons, ofLittleEndian, littleEndian, hlow, hhigh, ih]

/-- The bytes of the swapped number are those of the number, the highest first. -/
theorem littleEndian_byteSwapped (n x : Nat) : littleEndian n (byteSwapped n x) = (littleEndian n x).reverse := by
  have h := littleEndian_ofLittleEndian (littleEndian n x).reverse
  rwa [length_reverse, length_littleEndian] at h

theorem run_readBigEndian_foldl (l rest : List UInt8) (result : Nat) :
    (readBigEndian l.length result).run (l ++ rest) =
      some (l.foldl (fun r b => r <<< 8 ||| b.toNat) result, rest) := by
  induction l generalizing result with
  | nil => rfl
  | cons b l ih =>
    rw [length_cons, readBigEndian, cons_append, run_bind_of (run_byte b (l ++ rest)), ih]
    rfl

theorem foldl_reverse_eq (l : List UInt8) :
    l.reverse.foldl (fun r b => r <<< 8 ||| b.toNat) 0 = ofLittleEndian l := by
  rw [foldl_reverse]
  induction l with
  | nil => rfl
  | cons b l ih =>
    have hb : b.toNat < 2 ^ 8 := b.toNat_lt
    rw [foldr_cons, ih, ofLittleEndian, ← Nat.shiftLeft_add_eq_or_of_lt hb, Nat.shiftLeft_eq]
    omega

/-- A number that fits is read back. -/
theorem run_readBigEndian {n x : Nat} (hx : x < 256 ^ n) (rest : List UInt8) :
    (readBigEndian n 0).run (littleEndian n (byteSwapped n x) ++ rest) = some (x, rest) := by
  have h := run_readBigEndian_foldl (littleEndian n x).reverse rest 0
  rw [length_reverse, length_littleEndian, foldl_reverse_eq, ofLittleEndian_littleEndian,
    Nat.mod_eq_of_lt hx] at h
  rw [littleEndian_byteSwapped]
  exact h

end Codec
