import Builra.Util.MsgPack

namespace Builra.MsgPack

/-!
# `Util.MsgPackSlice` — the decoder on a slice of an array

The decoder holds a slice and counts the bytes that it has consumed. It checks the count against the number of elements
of the slice, and then takes the element whose index is the count; the indices of a slice are those of its array, so
that the element is not in the slice if the slice does not start at the start of the array.

* `Code` — what reads are made of, run on a slice (`Code.runOn`) or on the bytes that are left (`Code.toReader`);
* `Program` — what a client of the decoder does: reads, in any order, depending on what was read before;
* `decodes_iff` — the slices on which every program does what it does on the bytes alone.
-/

open Codec Utf8
open List hiding all count length
open Option hiding bind_assoc some

/-! ## Slices -/

/-- A slice of an array; its indices are the indices of the array. -/
structure ArraySlice where
  array : List UInt8
  startIndex : Nat
  endIndex : Nat
  start_le : startIndex ≤ endIndex
  end_le : endIndex ≤ array.length

namespace ArraySlice

variable (s : ArraySlice)

def count : Nat := s.endIndex - s.startIndex

/-- The element at an index; none where the index is outside the slice, which stops the program. -/
def element (i : Nat) : Option UInt8 :=
  if s.startIndex ≤ i ∧ i < s.endIndex then s.array[i]? else none

/-- The elements from `i` to `j`; none where the range is outside the slice. -/
def range (i j : Nat) : Option (List UInt8) :=
  if s.startIndex ≤ i ∧ i ≤ j ∧ j ≤ s.endIndex then some ((s.array.take j).drop i) else none

/-- The elements of the slice, in an array of their own. -/
def contents : List UInt8 := (s.array.take s.endIndex).drop s.startIndex

/-- All of an array. -/
def all (array : List UInt8) : ArraySlice := ⟨array, 0, array.length, Nat.zero_le _, Nat.le_refl _⟩

end ArraySlice

/-! ## Reads -/

/-- What the code of a read does with the decoder. -/
inductive Code (α : Type) where
  | done (a : α)
  | fail
  | consumeByte (k : UInt8 → Code α)
  | consumeBytes (length : Nat) (k : List UInt8 → Code α)

namespace Code

variable {α β : Type}

def bind : Code α → (α → Code β) → Code β
  | .done a, f => f a
  | .fail, _ => .fail
  | .consumeByte k, f => .consumeByte fun b => (k b).bind f
  | .consumeBytes length k, f => .consumeBytes length fun l => (k l).bind f

instance : Monad Code where
  pure := .done
  bind := .bind

/-- How code ends: a value and the bytes consumed, a thrown error, or an index outside the slice. -/
inductive Outcome (α : Type) where
  | returns (a : α) (consumedCount : Nat)
  | throws
  | trap

/-- Run the code on a slice, when `consumedCount` bytes are consumed. -/
@[grind =]
def runOn (s : ArraySlice) : Code α → Nat → Outcome α
  | .done a, consumedCount => .returns a consumedCount
  | .fail, _ => .throws
  | .consumeByte k, consumedCount =>
    if s.count < consumedCount + 1 then .throws
    else
      match s.element consumedCount with
      | none => .trap
      | some b => (k b).runOn s (consumedCount + 1)
  | .consumeBytes length k, consumedCount =>
    if s.count < consumedCount + length then .throws
    else
      match s.range consumedCount (consumedCount + length) with
      | none => .trap
      | some l => (k l).runOn s (consumedCount + length)

/-- Run the code on the bytes that are left. -/
def toReader : Code α → Reader α
  | .done a => pure a
  | .fail => failure
  | .consumeByte k => byte >>= fun b => (k b).toReader
  | .consumeBytes length k => bytes length >>= fun l => (k l).toReader

/-- `_consumeByte`. -/
def byte : Code UInt8 := .consumeByte .done

/-- `_consumeBytes`. -/
def bytes (length : Nat) : Code (List UInt8) := .consumeBytes length .done

def failIf (b : Bool) : Code Unit := if b then .fail else .done ()

def consumeByteIf (b : UInt8) : Code Unit := do
  failIf ((← byte) ≠ b)

/-- `_readBigEndianUInt16` and the like, for `n` bytes. -/
def readBigEndian : Nat → Nat → Code Nat
  | 0, result => return result
  | n + 1, result => do
    let b ← byte
    readBigEndian n (result <<< 8 ||| b.toNat)

def readCount (n bound : Nat) : Code Nat := do
  let count ← readBigEndian n 0
  failIf (count ≤ bound)
  return count

def stringLength : Code Nat := do
  let b ← byte
  if b &&& 0b11100000 = 0b10100000 then return (b &&& 0b00011111).toNat
  else if b = 0xd9 then readCount 1 0x1f
  else if b = 0xda then readCount 2 0xff
  else if b = 0xdb then readCount 4 0xffff
  else .fail

def binaryLength : Code Nat := do
  let b ← byte
  if b = 0xc4 then return (← byte).toNat
  else if b = 0xc5 then readCount 2 0xff
  else if b = 0xc6 then readCount 4 0xffff
  else .fail

def aggregateCount (fix tag16 tag32 : UInt8) : Code Nat := do
  let b ← byte
  if b &&& 0b11110000 = fix then return (b &&& 0b00001111).toNat
  else if b = tag16 then readCount 2 0xf
  else if b = tag32 then readCount 4 0xffff
  else .fail

def extendedLength : Code Nat := do
  let b ← byte
  if b = 0xd4 then return 1
  else if b = 0xd5 then return 2
  else if b = 0xd6 then return 4
  else if b = 0xd7 then return 8
  else if b = 0xd8 then return 16
  else if b = 0xc7 then
    let count := (← byte).toNat
    failIf (count = 1 ∨ count = 2 ∨ count = 4 ∨ count = 8 ∨ count = 16)
    return count
  else if b = 0xc8 then readCount 2 0xff
  else if b = 0xc9 then readCount 4 0xffff
  else .fail

end Code

/-- The reads of one item. -/
inductive Call : Type → Type where
  | readInt64 : Call Int64
  | readUInt64 : Call UInt64
  | readByte : Call UInt8
  | readNil : Call Unit
  | readBool : Call Bool
  | readFloat32 : Call UInt32
  | readFloat64 : Call UInt64
  | readString : Call String
  | readBinary : Call (List UInt8)
  | readBeginArray : Call Nat
  | readBeginMap : Call Nat
  | readExtended : Call (Int8 × List UInt8)

namespace Call

/-- The code that a read rewinds. -/
def code {α : Type} : Call α → Code α
  | .readInt64 => do
    Code.consumeByteIf 0xd3
    return (UInt64.ofNat (← Code.readBigEndian 8 0)).toInt64
  | .readUInt64 => do
    Code.consumeByteIf 0xcf
    return UInt64.ofNat (← Code.readBigEndian 8 0)
  | .readByte => do
    Code.consumeByteIf 0xe0
    Code.byte
  | .readNil => do
    Code.consumeByteIf 0xc0
  | .readBool => do
    let b ← Code.byte
    if b = 0xc2 then return false
    else if b = 0xc3 then return true
    else .fail
  | .readFloat32 => do
    Code.consumeByteIf 0xca
    return UInt32.ofNat (← Code.readBigEndian 4 0)
  | .readFloat64 => do
    Code.consumeByteIf 0xcb
    return UInt64.ofNat (← Code.readBigEndian 8 0)
  | .readString => do
    let length ← Code.stringLength
    return decoding (← Code.bytes length)
  | .readBinary => do
    let length ← Code.binaryLength
    Code.bytes length
  | .readBeginArray => Code.aggregateCount 0b10010000 0xdc 0xdd
  | .readBeginMap => Code.aggregateCount 0b10000000 0xde 0xdf
  | .readExtended => do
    let length ← Code.extendedLength
    let type ← Code.byte
    let data ← Code.bytes length
    return (type.toInt8, data)

/-- `_rewind`, on a slice: a value, or nothing, and the bytes consumed; none where the program stops. -/
def runOn {α : Type} (s : ArraySlice) (call : Call α) (consumedCount : Nat) : Option (Option α × Nat) :=
  match call.code.runOn s consumedCount with
  | .returns a consumedCount' => some (some a, consumedCount')
  | .throws => some (none, consumedCount)
  | .trap => none

/-- The read, on the bytes that are left. -/
def read {α : Type} : Call α → Read α
  | .readInt64 => MsgPack.readInt64
  | .readUInt64 => MsgPack.readUInt64
  | .readByte => MsgPack.readByte
  | .readNil => MsgPack.readNil
  | .readBool => MsgPack.readBool
  | .readFloat32 => MsgPack.readFloat32
  | .readFloat64 => MsgPack.readFloat64
  | .readString => MsgPack.readString
  | .readBinary => MsgPack.readBinary
  | .readBeginArray => MsgPack.readBeginArray
  | .readBeginMap => MsgPack.readBeginMap
  | .readExtended => MsgPack.readExtended

end Call

/-! ## Programs -/

/-- What a client does: it reads, and goes on with what was read. -/
inductive Program : Type → Type 1 where
  | done {α} (a : α) : Program α
  | read {α β} (call : Call β) (k : Option β → Program α) : Program α

namespace Program

variable {α β : Type}

/-- Run a program on a slice; none where it stops. -/
def runOn (s : ArraySlice) : Program α → Nat → Option (α × Nat)
  | .done a, consumedCount => some (a, consumedCount)
  | .read call k, consumedCount =>
    match call.runOn s consumedCount with
    | none => none
    | some (r, consumedCount) => (k r).runOn s consumedCount

end Program

/-! ## The code of the reads is the code of the decoder on bytes -/

namespace Code

variable {α β : Type}

theorem toReader_bind (x : Code α) (f : α → Code β) : (x >>= f).toReader = x.toReader >>= fun a => (f a).toReader := by
  show (x.bind f).toReader = _
  induction x with
  | done a => simp [bind, toReader]
  | fail =>
    simp only [bind, toReader]
    funext input
    rfl
  | consumeByte k ih | consumeBytes length k ih => simp only [bind, toReader, ih, bind_assoc]

theorem toReader_pure (a : α) : (pure a : Code α).toReader = pure a := rfl

theorem toReader_fail : (.fail : Code α).toReader = failure := rfl

theorem toReader_byte : byte.toReader = Codec.byte := by simp [byte, toReader]

theorem toReader_bytes (length : Nat) : (bytes length).toReader = Codec.bytes length := by simp [bytes, toReader]

theorem toReader_failIf (b : Bool) : (failIf b).toReader = MsgPack.failIf b := by
  cases b with
  | true | false => rfl

theorem toReader_ite (p : Prop) [Decidable p] (x y : Code α) :
    (if p then x else y).toReader = if p then x.toReader else y.toReader := apply_ite toReader p x y

theorem toReader_consumeByteIf (b : UInt8) : (consumeByteIf b).toReader = MsgPack.consumeByteIf b := by
  simp only [consumeByteIf, MsgPack.consumeByteIf, toReader_bind, toReader_byte, toReader_failIf]

theorem toReader_readBigEndian (n result : Nat) : (readBigEndian n result).toReader = Codec.readBigEndian n result := by
  induction n generalizing result with
  | zero => rfl
  | succ n ih => simp only [readBigEndian, Codec.readBigEndian, toReader_bind, toReader_byte, ih]

theorem toReader_readCount (n bound : Nat) : (readCount n bound).toReader = MsgPack.readCount n bound := by
  simp only [readCount, MsgPack.readCount, toReader_bind, toReader_readBigEndian, toReader_failIf, toReader_pure]

theorem toReader_stringLength : stringLength.toReader = MsgPack.stringLength := by
  simp only [stringLength, MsgPack.stringLength, toReader_bind, toReader_byte, toReader_ite, toReader_readCount,
    toReader_pure, toReader_fail]

theorem toReader_binaryLength : binaryLength.toReader = MsgPack.binaryLength := by
  simp only [binaryLength, MsgPack.binaryLength, toReader_bind, toReader_byte, toReader_ite, toReader_readCount,
    toReader_pure, toReader_fail]

theorem toReader_aggregateCount (fix tag16 tag32 : UInt8) :
    (aggregateCount fix tag16 tag32).toReader = MsgPack.aggregateCount fix tag16 tag32 := by
  simp only [aggregateCount, MsgPack.aggregateCount, toReader_bind, toReader_byte, toReader_ite, toReader_readCount,
    toReader_pure, toReader_fail]

theorem toReader_extendedLength : extendedLength.toReader = MsgPack.extendedLength := by
  simp only [extendedLength, MsgPack.extendedLength, toReader_bind, toReader_byte, toReader_ite, toReader_readCount,
    toReader_pure, toReader_fail, toReader_failIf]

end Code

variable {α β : Type} {s : ArraySlice} {bytes : List UInt8}

theorem Call.read_eq (call : Call α) : call.read = rewind call.code.toReader := by
  open Code in
  cases call with
  | readInt64 =>
    simp only [Call.read, MsgPack.readInt64, Call.code, toReader_bind, toReader_consumeByteIf, toReader_readBigEndian,
      toReader_pure]
  | readUInt64 =>
    simp only [Call.read, MsgPack.readUInt64, Call.code, toReader_bind, toReader_consumeByteIf, toReader_readBigEndian,
      toReader_pure]
  | readByte => simp only [Call.read, MsgPack.readByte, Call.code, toReader_bind, toReader_consumeByteIf, toReader_byte]
  | readNil => simp only [Call.read, MsgPack.readNil, Call.code, toReader_consumeByteIf]
  | readBool =>
    simp only [Call.read, MsgPack.readBool, Call.code, toReader_bind, toReader_byte, toReader_ite, toReader_pure,
      toReader_fail]
  | readFloat32 =>
    simp only [Call.read, MsgPack.readFloat32, Call.code, toReader_bind, toReader_consumeByteIf, toReader_readBigEndian,
      toReader_pure]
  | readFloat64 =>
    simp only [Call.read, MsgPack.readFloat64, Call.code, toReader_bind, toReader_consumeByteIf, toReader_readBigEndian,
      toReader_pure]
  | readString =>
    simp only [Call.read, MsgPack.readString, Call.code, toReader_bind, toReader_stringLength, toReader_bytes,
      toReader_pure]
  | readBinary =>
    simp only [Call.read, MsgPack.readBinary, Call.code, toReader_bind, toReader_binaryLength, toReader_bytes]
  | readBeginArray => simp only [Call.read, MsgPack.readBeginArray, Call.code, toReader_aggregateCount]
  | readBeginMap => simp only [Call.read, MsgPack.readBeginMap, Call.code, toReader_aggregateCount]
  | readExtended =>
    simp only [Call.read, MsgPack.readExtended, Call.code, toReader_bind, toReader_extendedLength, toReader_byte,
      toReader_bytes, toReader_pure]

/-! ## A slice at the start of its array -/

namespace ArraySlice

@[simp]
theorem count_all (bytes : List UInt8) : (all bytes).count = bytes.length := rfl

variable {s : ArraySlice}

theorem length_contents : s.contents.length = s.count := by
  unfold contents count
  rw [length_drop, length_take, Nat.min_eq_left s.end_le]

theorem contents_of_start (h : s.startIndex = 0) : s.contents = s.array.take s.endIndex := by
  unfold contents
  rw [h, drop_zero]

theorem count_of_start (h : s.startIndex = 0) : s.count = s.endIndex := by
  unfold count
  rw [h, Nat.sub_zero]

theorem element_all {bytes : List UInt8} {i : Nat} : (all bytes).element i = bytes[i]? := by
  unfold element all
  split_ifs with h
  · rfl
  · exact (getElem?_eq_none (by simpa using h)).symm

theorem range_all {bytes : List UInt8} {i j : Nat} (hij : i ≤ j) (hj : j ≤ bytes.length) :
    (all bytes).range i j = some ((bytes.take j).drop i) := if_pos ⟨Nat.zero_le i, hij, hj⟩

theorem element_of_start (h : s.startIndex = 0) (i : Nat) : s.element i = (all s.contents).element i := by
  rw [element_all, contents_of_start h, getElem?_take]
  unfold element
  rw [h]
  by_cases hi : i < s.endIndex
  · rw [if_pos ⟨Nat.zero_le i, hi⟩, if_pos hi]
  · rw [if_neg (fun hc => hi hc.2), if_neg hi]

theorem range_of_start (h : s.startIndex = 0) (i j : Nat) : s.range i j = (all s.contents).range i j := by
  have hlen : s.contents.length = s.endIndex := length_contents.trans (count_of_start h)
  unfold range all
  simp only [h, hlen]
  by_cases hj : i ≤ j ∧ j ≤ s.endIndex
  · rw [if_pos ⟨Nat.zero_le i, hj⟩, if_pos ⟨Nat.zero_le i, hj⟩, contents_of_start h, take_take,
      Nat.min_eq_left hj.2]
  · rw [if_neg (fun hc => hj hc.2), if_neg (fun hc => hj hc.2)]

end ArraySlice

open ArraySlice

theorem Code.runOn_of_start (h : s.startIndex = 0) (code : Code α) (n : Nat) :
    code.runOn s n = code.runOn (all s.contents) n := by
  induction code generalizing n with
  | done a | fail => rfl
  | consumeByte k ih =>
    simp only [Code.runOn, count_all, length_contents, element_of_start h n]
    split_ifs
    · rfl
    · cases (all s.contents).element n with
      | none => rfl
      | some b => exact ih b (n + 1)
  | consumeBytes length k ih =>
    simp only [Code.runOn, count_all, length_contents, range_of_start h n]
    split_ifs
    · rfl
    · cases (all s.contents).range n (n + length) with
      | none => rfl
      | some l => exact ih l (n + length)

section RunOn

variable {α : Type} {s : ArraySlice} {n length : Nat}

variable {k : UInt8 → Code α}

theorem Code.runOn_consumeByte_throws (h : s.count < n + 1) :
    (Code.consumeByte k).runOn s n = .throws := by
  rw [Code.runOn, if_pos h]

theorem Code.runOn_consumeByte {b : UInt8} (h : n < s.count) (hb : s.element n = some b) :
    (Code.consumeByte k).runOn s n = (k b).runOn s (n + 1) := by
  rw [Code.runOn, if_neg (Nat.not_lt.mpr h), hb]

theorem Code.runOn_consumeByte_trap (h : n < s.count) (hb : s.element n = none) :
    (Code.consumeByte k).runOn s n = .trap := by
  rw [Code.runOn, if_neg (Nat.not_lt.mpr h), hb]

theorem Code.runOn_consumeBytes_throws {k : List UInt8 → Code α} (h : s.count < n + length) :
    (Code.consumeBytes length k).runOn s n = .throws := by
  rw [Code.runOn, if_pos h]

theorem Code.runOn_consumeBytes {k : List UInt8 → Code α} {l : List UInt8} (h : n + length ≤ s.count)
    (hl : s.range n (n + length) = some l) :
    (Code.consumeBytes length k).runOn s n = (k l).runOn s (n + length) := by
  rw [Code.runOn, if_neg (Nat.not_lt.mpr h), hl]

end RunOn

/-- On an array, code does what it does on the bytes that are left. -/
theorem Code.runOn_all (code : Code α) {n : Nat} (hn : n ≤ bytes.length) :
    (∃ a n', code.runOn (all bytes) n = .returns a n' ∧ n' ≤ bytes.length ∧
      code.toReader.run (bytes.drop n) = some (a, bytes.drop n')) ∨
    (code.runOn (all bytes) n = .throws ∧ code.toReader.run (bytes.drop n) = none) := by
  induction code generalizing n with
  | done a => exact .inl ⟨a, n, rfl, hn, rfl⟩
  | fail => exact .inr ⟨rfl, rfl⟩
  | consumeByte k ih =>
    by_cases hlt : n < bytes.length
    · have hcons : bytes.drop n = bytes[n] :: bytes.drop (n + 1) := drop_eq_getElem_cons hlt
      have hrun : (Code.consumeByte k).toReader.run (bytes.drop n)
          = (k bytes[n]).toReader.run (bytes.drop (n + 1)) := by
        rw [hcons]
        rfl
      rw [hrun, runOn_consumeByte (s := all bytes) hlt (element_all.trans (getElem?_eq_getElem hlt))]
      exact ih bytes[n] hlt
    · refine .inr ⟨runOn_consumeByte_throws (by rw [count_all]; omega), ?_⟩
      rw [drop_eq_nil_of_le (Nat.not_lt.mp hlt)]
      rfl
  | consumeBytes length k ih =>
    by_cases hle : n + length ≤ bytes.length
    · have hlen : ((bytes.drop n).take length).length = length := by
        rw [length_take, length_drop]
        omega
      have hcut : bytes.drop n = (bytes.drop n).take length ++ bytes.drop (n + length) := by
        rw [← drop_drop, take_append_drop]
      have hbytes : (Codec.bytes length).run (bytes.drop n)
          = some ((bytes.drop n).take length, bytes.drop (n + length)) := by
        have h := run_bytes ((bytes.drop n).take length) (bytes.drop (n + length))
        rwa [hlen, ← hcut] at h
      have hrange : (all bytes).range n (n + length) = some ((bytes.drop n).take length) := by
        rw [range_all (Nat.le_add_right n length) hle, drop_take, Nat.add_sub_cancel_left]
      rw [runOn_consumeBytes (s := all bytes) hle hrange, toReader, run_bind_of hbytes]
      exact ih _ hle
    · refine .inr ⟨runOn_consumeBytes_throws (Nat.lt_of_not_le hle), ?_⟩
      have hshort : ¬ length ≤ bytes.length - n := by omega
      have hbytes : (Codec.bytes length).run (bytes.drop n) = none := by
        simp only [Codec.bytes, StateT.run_bind, StateT.run_get, Option.pure_def, Option.bind_eq_bind, Option.bind_some,
          length_drop, if_neg hshort]
        rfl
      rw [toReader, StateT.run_bind, hbytes]
      rfl

/-- A read of an array is the read of the bytes that are left. -/
theorem Call.runOn_all (call : Call α) {n : Nat} (hn : n ≤ bytes.length) :
    ∃ r n', call.runOn (all bytes) n = some (r, n') ∧ n' ≤ bytes.length ∧
      call.read (bytes.drop n) = (r, bytes.drop n') := by
  rw [call.read_eq]
  unfold Call.runOn rewind
  rcases call.code.runOn_all hn with ⟨a, n', hrun, hn', hread⟩ | ⟨hrun, hread⟩
  · rw [hrun, hread]
    exact ⟨some a, n', rfl, hn', rfl⟩
  · rw [hrun, hread]
    exact ⟨none, n, rfl, hn, rfl⟩

/-- What a program does on bytes. -/
def Program.run {α : Type} : Program α → List UInt8 → α × List UInt8
  | .done a, input => (a, input)
  | .read call k, input => (k (call.read input).1).run (call.read input).2

theorem Program.runOn_all (p : Program α) {n : Nat} (hn : n ≤ bytes.length) :
    ∃ a n', p.runOn (all bytes) n = some (a, n') ∧ n' ≤ bytes.length ∧ p.run (bytes.drop n) = (a, bytes.drop n') := by
  induction p generalizing n with
  | done a => exact ⟨a, n, rfl, hn, rfl⟩
  | read call k ih =>
    obtain ⟨r, n', hcall, hn', hread⟩ := call.runOn_all hn
    obtain ⟨a, n'', hrun, hn'', hrest⟩ := ih r hn'
    refine ⟨a, n'', ?_, hn'', ?_⟩
    · unfold Program.runOn
      rw [hcall]
      exact hrun
    · unfold Program.run
      rw [hread]
      exact hrest

/-! ## The slices that can be decoded -/

/-- Every program does on the slice what it does on an array of its own with the same bytes, and consumes at most the
bytes of the slice; a read that fails consumes nothing. -/
structure Decodes (s : ArraySlice) : Prop where
  runs : ∀ {α : Type} (p : Program α), ∃ a n, p.runOn s 0 = some (a, n) ∧ n ≤ s.count ∧
    p.runOn (all s.contents) 0 = some (a, n)
  rewinds : ∀ {β : Type} (call : Call β) (n n' : Nat), call.runOn s n = some (none, n') → n' = n

theorem Call.rewinds {call : Call β} {n n' : Nat} (h : call.runOn s n = some (none, n')) :
    n' = n := by
  unfold Call.runOn at h
  split at h
  · obtain ⟨hr, -⟩ := Prod.mk.inj (Option.some.inj h)
    exact absurd hr (some_ne_none _)
  · exact (Prod.mk.inj (Option.some.inj h)).2.symm
  · exact absurd h (some_ne_none _).symm

theorem Program.runOn_of_start (h : s.startIndex = 0) (p : Program α) (n : Nat) :
    p.runOn s n = p.runOn (all s.contents) n := by
  induction p generalizing n with
  | done a => rfl
  | read call k ih =>
    have hcall : call.runOn s n = call.runOn (all s.contents) n := by
      unfold Call.runOn
      rw [call.code.runOn_of_start h]
    unfold Program.runOn
    rw [hcall]
    cases call.runOn (all s.contents) n with
    | none => rfl
    | some r => exact ih r.1 r.2

/-- Every read begins with a byte. -/
theorem Call.code_consumes (call : Call β) : ∃ k, call.code = .consumeByte k := by
  cases call with
  | _ => exact ⟨_, rfl⟩

/-- Of an empty slice, nothing is read. -/
theorem Program.runOn_empty (h : s.count = 0) (p : Program α) :
    ∃ a, p.runOn s 0 = some (a, 0) ∧ ∀ t : ArraySlice, t.count = 0 → p.runOn t 0 = some (a, 0) := by
  have hcall : ∀ {β : Type} (call : Call β) (t : ArraySlice), t.count = 0 → call.runOn t 0 = some (none, 0) := by
    intro β call t ht
    obtain ⟨k, hk⟩ := call.code_consumes
    unfold Call.runOn
    rw [hk, Code.runOn_consumeByte_throws (by rw [ht]; omega)]
  induction p with
  | done a => exact ⟨a, rfl, fun _ _ => rfl⟩
  | read call k ih =>
    obtain ⟨a, hs, hall⟩ := ih none
    refine ⟨a, ?_, ?_⟩
    · unfold Program.runOn
      rw [hcall call s h]
      exact hs
    · intro t ht
      unfold Program.runOn
      rw [hcall call t ht]
      exact hall t ht

/-- A slice can be decoded if it starts at the start of its array, or is empty. -/
theorem decodes_iff (s : ArraySlice) : Decodes s ↔ s.startIndex = 0 ∨ s.startIndex = s.endIndex := by
  constructor
  · intro h
    by_contra hnot
    have hlt : s.startIndex < s.endIndex := Nat.lt_of_le_of_ne s.start_le (fun heq => hnot (.inr heq))
    have hstart : 0 < s.startIndex := Nat.pos_of_ne_zero (fun heq => hnot (.inl heq))
    have hcount : 0 < s.count := Nat.sub_pos_of_lt hlt
    have helement : s.element 0 = none := if_neg (fun hc => absurd hc.1 (Nat.not_le.mpr hstart))
    -- the first byte has index 0, which is in front of the slice
    have htrap : Call.readNil.runOn s 0 = none := by
      obtain ⟨k, hk⟩ := Call.readNil.code_consumes
      unfold Call.runOn
      rw [hk, Code.runOn_consumeByte_trap hcount helement]
    obtain ⟨a, n, hrun, -, -⟩ := h.runs (.read .readNil .done)
    unfold Program.runOn at hrun
    rw [htrap] at hrun
    exact absurd hrun (some_ne_none _).symm
  · rintro (hstart | hempty)
    · refine ⟨fun p => ?_, fun call n n' hc => Call.rewinds hc⟩
      obtain ⟨a, n, hrun, hn, -⟩ := p.runOn_all (Nat.zero_le s.contents.length)
      exact ⟨a, n, (p.runOn_of_start hstart 0).trans hrun, length_contents ▸ hn, hrun⟩
    · have hcount : s.count = 0 := by
        unfold count
        rw [hempty, Nat.sub_self]
      refine ⟨fun p => ?_, fun call n n' hc => Call.rewinds hc⟩
      obtain ⟨a, hrun, hall⟩ := p.runOn_empty hcount
      refine ⟨a, 0, hrun, Nat.zero_le _, hall _ ?_⟩
      rw [count_all, length_contents, hcount]

/-- The element after the first of two. -/
theorem not_decodes_all : ¬ ∀ s : ArraySlice, Decodes s := by
  intro h
  obtain ⟨a, n, hrun, -, -⟩ := (h ⟨[0, 0xc0], 1, 2, by decide, by decide⟩).runs (.read .readNil .done)
  have htrap : (Program.read Call.readNil Program.done).runOn ⟨[0, 0xc0], 1, 2, by decide, by decide⟩ 0 = none := rfl
  exact absurd (htrap.symm.trans hrun) (some_ne_none _).symm

end Builra.MsgPack
