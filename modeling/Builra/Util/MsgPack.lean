import Builra.Lib.Codec
import Builra.Lib.Utf8

namespace Builra

open List Option

/-!
# `Util.MsgPack` — `MsgPackEncoder` and `MsgPackDecoder`

The encoder appends to its bytes and, in debug builds, counts the elements of arrays and maps; it stops the program
where a length or a count has no encoding, or where the counts do not match. The decoder is modelled by the bytes that
it has not consumed; a read gives a value and what is left, or nothing and everything.

* `Op` — the calls of the encoder, `Balanced` — those whose `begin` and `end` calls match;
* `Kind` — the types that the decoder tells apart, `tagKind` — the one that a first byte stands for;
* `msgPack_coding` — what was written is read back, and other reads have no effect.
-/

open Codec Utf8

namespace MsgPack

/-! ## Items -/

/-- What is written at one position. Floating point numbers are given by their bit patterns. -/
inductive Item where
  | int64 (i : Int64)
  | uint64 (i : UInt64)
  | uint8 (i : UInt8)
  | nil
  | bool (b : Bool)
  | float32 (bitPattern : UInt32)
  | float64 (bitPattern : UInt64)
  | string (s : String)
  | binary (data : List UInt8)
  | extended (type : Int8) (data : List UInt8)
  | beginArray (count : Nat)
  | beginMap (count : Nat)

/-- The types that reads are for. -/
inductive Kind where
  | int64
  | uint64
  | uint8
  | nil
  | bool
  | float32
  | float64
  | string
  | binary
  | extended
  | beginArray
  | beginMap
deriving DecidableEq

def Item.kind : Item → Kind
  | .int64 _ => .int64
  | .uint64 _ => .uint64
  | .uint8 _ => .uint8
  | .nil => .nil
  | .bool _ => .bool
  | .float32 _ => .float32
  | .float64 _ => .float64
  | .string _ => .string
  | .binary _ => .binary
  | .extended _ _ => .extended
  | .beginArray _ => .beginArray
  | .beginMap _ => .beginMap

/-! ## The encoder -/

/-- `_appendBigEndian`, for a number of `n` bytes. -/
def appendBigEndian (n x : Nat) : List UInt8 := littleEndian n (byteSwapped n x)

variable (count : Nat)

/-- The first bytes of a string with `count` bytes. -/
def stringHeader : Option (List UInt8) :=
  if count ≤ 31 then some [0b10100000 ||| UInt8.ofNat count]
  else if count ≤ 0xff then some [0xd9, UInt8.ofNat count]
  else if count ≤ 0xffff then some (0xda :: appendBigEndian 2 count)
  else if count ≤ 0xffffffff then some (0xdb :: appendBigEndian 4 count)
  else none

def binaryHeader : Option (List UInt8) :=
  if count ≤ 0xff then some [0xc4, UInt8.ofNat count]
  else if count ≤ 0xffff then some (0xc5 :: appendBigEndian 2 count)
  else if count ≤ 0xffffffff then some (0xc6 :: appendBigEndian 4 count)
  else none

/-- `beginArray` and `beginMap`, which differ in their tags. -/
def aggregateHeader (fix tag16 tag32 : UInt8) (count : Nat) : Option (List UInt8) :=
  if count ≤ 0xf then some [fix ||| UInt8.ofNat count]
  else if count ≤ 0xffff then some (tag16 :: appendBigEndian 2 count)
  else if count ≤ 0xffffffff then some (tag32 :: appendBigEndian 4 count)
  else none

def arrayHeader : Option (List UInt8) := aggregateHeader 0b10010000 0xdc 0xdd count

def mapHeader : Option (List UInt8) := aggregateHeader 0b10000000 0xde 0xdf count

def extendedHeader : Option (List UInt8) :=
  if count = 1 then some [0xd4]
  else if count = 2 then some [0xd5]
  else if count = 4 then some [0xd6]
  else if count = 8 then some [0xd7]
  else if count = 16 then some [0xd8]
  else if count ≤ 0xff then some [0xc7, UInt8.ofNat count]
  else if count ≤ 0xffff then some (0xc8 :: appendBigEndian 2 count)
  else if count ≤ 0xffffffff then some (0xc9 :: appendBigEndian 4 count)
  else none

/-- The bytes of an item; none where the encoder stops the program. -/
def Item.bytes : Item → Option (List UInt8)
  | .int64 i => some (0xd3 :: appendBigEndian 8 i.toUInt64.toNat)
  | .uint64 i => some (0xcf :: appendBigEndian 8 i.toNat)
  | .uint8 i => some [0xe0, i]
  | .nil => some [0xc0]
  | .bool b => some [if b then 0xc3 else 0xc2]
  | .float32 bitPattern => some (0xca :: appendBigEndian 4 bitPattern.toNat)
  | .float64 bitPattern => some (0xcb :: appendBigEndian 8 bitPattern.toNat)
  | .string s => (stringHeader (utf8 s).length).map (· ++ utf8 s)
  | .binary data => (binaryHeader data.length).map (· ++ data)
  | .extended type data => (extendedHeader data.length).map (· ++ type.toUInt8 :: data)
  | .beginArray count => arrayHeader count
  | .beginMap count => mapHeader count

/-- The calls of the encoder. -/
inductive Op where
  | append (item : Item)
  | beginArray (count : Nat)
  | endArray
  | beginMap (mappingCount : Nat)
  | endMap

/-- `MsgPackEncoder`; the counts have the innermost array or map first. -/
structure Encoder where
  bytes : List UInt8 := []
  expectedElementCount : List Nat := [0]
  actualElementCount : List Nat := [0]

namespace Encoder

variable (enableIntegrityChecks : Bool)

def addedElement (e : Encoder) : Encoder :=
  if enableIntegrityChecks then
    { e with actualElementCount := e.actualElementCount.modifyHead (· + 1) }
  else e

/-- `beginArray` and `beginMap`, after their first bytes. -/
def beginElements (e : Encoder) (count : Nat) : Encoder :=
  if enableIntegrityChecks then
    { e with
      expectedElementCount := count :: e.expectedElementCount
      actualElementCount := 0 :: e.actualElementCount }
  else e

/-- `endArray` and `endMap`. -/
def endElements (e : Encoder) : Option Encoder :=
  if enableIntegrityChecks then
    match e.expectedElementCount, e.actualElementCount with
    | expectedCount :: expected, actualCount :: actual =>
      if expectedCount ≠ actualCount then none
      else some (addedElement enableIntegrityChecks
        { e with expectedElementCount := expected, actualElementCount := actual })
    | _, _ => none
  else some e

def appendBytes (e : Encoder) (bytes : List UInt8) : Encoder := { e with bytes := e.bytes ++ bytes }

/-- One call; none where it stops the program. -/
def call (e : Encoder) : Op → Option Encoder
  | .append item => item.bytes.map fun bytes => addedElement enableIntegrityChecks (e.appendBytes bytes)
  | .beginArray count =>
    (arrayHeader count).map fun bytes => beginElements enableIntegrityChecks (e.appendBytes bytes) count
  | .beginMap count =>
    (mapHeader count).map fun bytes => beginElements enableIntegrityChecks (e.appendBytes bytes) (count * 2)
  | .endArray | .endMap => endElements enableIntegrityChecks e

def calls (e : Encoder) : List Op → Option Encoder
  | [] => some e
  | op :: ops => (call enableIntegrityChecks e op).bind fun e' => e'.calls ops

end Encoder

/-- Calls that append `n` values: arrays and maps have as many elements as they say. -/
inductive Balanced : Nat → List Op → Prop where
  | nil : Balanced 0 []
  | scalar {n ops item} : item.kind ≠ .beginArray → item.kind ≠ .beginMap →
      Balanced n ops → Balanced (n + 1) (.append item :: ops)
  | array {n count elements ops} : Balanced count elements → Balanced n ops →
      Balanced (n + 1) (.beginArray count :: elements ++ .endArray :: ops)
  | map {n count elements ops} : Balanced (count * 2) elements → Balanced n ops →
      Balanced (n + 1) (.beginMap count :: elements ++ .endMap :: ops)

/-- What a call writes. -/
def Op.item? : Op → Option Item
  | .append item => some item
  | .beginArray count => some (.beginArray count)
  | .beginMap count => some (.beginMap count)
  | .endArray | .endMap => none

/-- Lengths and counts have encodings. -/
def Item.Fits : Item → Prop
  | .string s => (utf8 s).length < 2 ^ 32
  | .binary data => data.length < 2 ^ 32
  | .extended _ data => data.length < 2 ^ 32
  | .beginArray count => count < 2 ^ 32
  | .beginMap count => count < 2 ^ 32
  | _ => True

/-! ## The decoder -/

/-- A read gives a value, or nothing, and what is left. -/
abbrev Read (α : Type) := List UInt8 → Option α × List UInt8

/-- `_rewind`: nothing is consumed if the code throws. -/
def rewind {α : Type} (code : Reader α) : Read α := fun input =>
  match code.run input with
  | some (a, rest) => (some a, rest)
  | none => (none, input)

def failIf (b : Bool) : Reader Unit := if b then failure else return ()

/-- `_consumeByteIf`. -/
def consumeByteIf (b : UInt8) : Reader Unit := do
  failIf ((← byte) ≠ b)

def readInt64 : Read Int64 := rewind do
  consumeByteIf 0xd3
  return (UInt64.ofNat (← readBigEndian 8 0)).toInt64

def readUInt64 : Read UInt64 := rewind do
  consumeByteIf 0xcf
  return UInt64.ofNat (← readBigEndian 8 0)

def readByte : Read UInt8 := rewind do
  consumeByteIf 0xe0
  byte

def readNil : Read Unit := rewind do
  consumeByteIf 0xc0

def readBool : Read Bool := rewind do
  let b ← byte
  if b = 0xc2 then return false
  else if b = 0xc3 then return true
  else failure

def readFloat32 : Read UInt32 := rewind do
  consumeByteIf 0xca
  return UInt32.ofNat (← readBigEndian 4 0)

def readFloat64 : Read UInt64 := rewind do
  consumeByteIf 0xcb
  return UInt64.ofNat (← readBigEndian 8 0)

/-- A count of `n` bytes that is not overlong. -/
def readCount (n bound : Nat) : Reader Nat := do
  let count ← readBigEndian n 0
  failIf (count ≤ bound)
  return count

def stringLength : Reader Nat := do
  let b ← byte
  if b &&& 0b11100000 = 0b10100000 then return (b &&& 0b00011111).toNat
  else if b = 0xd9 then readCount 1 0x1f
  else if b = 0xda then readCount 2 0xff
  else if b = 0xdb then readCount 4 0xffff
  else failure

def readString : Read String := rewind do
  let length ← stringLength
  return decoding (← bytes length)

def binaryLength : Reader Nat := do
  let b ← byte
  if b = 0xc4 then return (← byte).toNat
  else if b = 0xc5 then readCount 2 0xff
  else if b = 0xc6 then readCount 4 0xffff
  else failure

def readBinary : Read (List UInt8) := rewind do
  let length ← binaryLength
  bytes length

/-- `readBeginArray` and `readBeginMap`, which differ in their tags. -/
def aggregateCount (fix tag16 tag32 : UInt8) : Reader Nat := do
  let b ← byte
  if b &&& 0b11110000 = fix then return (b &&& 0b00001111).toNat
  else if b = tag16 then readCount 2 0xf
  else if b = tag32 then readCount 4 0xffff
  else failure

def readBeginArray : Read Nat := rewind (aggregateCount 0b10010000 0xdc 0xdd)

def readBeginMap : Read Nat := rewind (aggregateCount 0b10000000 0xde 0xdf)

def extendedLength : Reader Nat := do
  let b ← byte
  if b = 0xd4 then return 1
  else if b = 0xd5 then return 2
  else if b = 0xd6 then return 4
  else if b = 0xd7 then return 8
  else if b = 0xd8 then return 16
  else if b = 0xc7 then
    let count := (← byte).toNat
    failIf (count = 1 ∨ count = 2 ∨ count = 4 ∨ count = 8 ∨ count = 16)
    return count
  else if b = 0xc8 then readCount 2 0xff
  else if b = 0xc9 then readCount 4 0xffff
  else failure

def readExtended : Read (Int8 × List UInt8) := rewind do
  let length ← extendedLength
  let type ← byte
  let data ← bytes length
  return (type.toInt8, data)

/-- The elements of an array; where one cannot be decoded, the rest of the array is not consumed. -/
def readElements {α : Type} (decodeElement : Read α) : Nat → Read (List α)
  | 0, input => (some [], input)
  | count + 1, input =>
    match decodeElement input with
    | (none, rest) => (none, rest)
    | (some a, rest) => ((readElements decodeElement count rest).1.map (a :: ·), (readElements decodeElement count rest).2)

def readArray {α : Type} (decodeElement : Read α) : Read (List α) := fun input =>
  match readBeginArray input with
  | (none, rest) => (none, rest)
  | (some count, rest) => readElements decodeElement count rest

/-- `dict[key] = value`, on the pairs of a dictionary. -/
def setValue {κ ν : Type} [DecidableEq κ] (key : κ) (value : ν) : List (κ × ν) → List (κ × ν)
  | [] => [(key, value)]
  | pair :: dict => if pair.1 = key then (key, value) :: dict else pair :: setValue key value dict

def readPairs {κ ν : Type} [DecidableEq κ] (decodeKey : Read κ) (decodeValue : Read ν) :
    Nat → List (κ × ν) → Read (List (κ × ν))
  | 0, dict, input => (some dict, input)
  | count + 1, dict, input =>
    match decodeKey input with
    | (none, rest) => (none, rest)
    | (some key, rest) =>
      match decodeValue rest with
      | (none, rest) => (none, rest)
      | (some value, rest) => readPairs decodeKey decodeValue count (setValue key value dict) rest

def readDictionary {κ ν : Type} [DecidableEq κ] (decodeKey : Read κ) (decodeValue : Read ν) :
    Read (List (κ × ν)) := fun input =>
  match readBeginMap input with
  | (none, rest) => (none, rest)
  | (some count, rest) => readPairs decodeKey decodeValue count [] rest

/-- The read for each type. -/
def readItem (kind : Kind) (input : List UInt8) : Option Item × List UInt8 :=
  match kind with
  | .int64 => (readInt64 input).map (Option.map .int64) id
  | .uint64 => (readUInt64 input).map (Option.map .uint64) id
  | .uint8 => (readByte input).map (Option.map .uint8) id
  | .nil => (readNil input).map (Option.map fun _ => .nil) id
  | .bool => (readBool input).map (Option.map .bool) id
  | .float32 => (readFloat32 input).map (Option.map .float32) id
  | .float64 => (readFloat64 input).map (Option.map .float64) id
  | .string => (readString input).map (Option.map .string) id
  | .binary => (readBinary input).map (Option.map .binary) id
  | .extended => (readExtended input).map (Option.map fun result => .extended result.1 result.2) id
  | .beginArray => (readBeginArray input).map (Option.map .beginArray) id
  | .beginMap => (readBeginMap input).map (Option.map .beginMap) id

/-- One read after the other; none if one of them gives nothing. -/
def readItems : List Kind → List UInt8 → Option (List Item × List UInt8)
  | [], input => some ([], input)
  | kind :: kinds, input =>
    match readItem kind input with
    | (none, _) => none
    | (some item, rest) => (readItems kinds rest).map fun result => (item :: result.1, result.2)

/-! ## Tags -/

/-- The type that a first byte stands for. -/
def tagKind (b : UInt8) : Option Kind :=
  if b &&& 0b11100000 = 0b10100000 then some .string
  else if b &&& 0b11110000 = 0b10010000 then some .beginArray
  else if b &&& 0b11110000 = 0b10000000 then some .beginMap
  else if b = 0xd3 then some .int64
  else if b = 0xcf then some .uint64
  else if b = 0xe0 then some .uint8
  else if b = 0xc0 then some .nil
  else if b = 0xc2 ∨ b = 0xc3 then some .bool
  else if b = 0xca then some .float32
  else if b = 0xcb then some .float64
  else if b = 0xd9 ∨ b = 0xda ∨ b = 0xdb then some .string
  else if b = 0xc4 ∨ b = 0xc5 ∨ b = 0xc6 then some .binary
  else if b = 0xdc ∨ b = 0xdd then some .beginArray
  else if b = 0xde ∨ b = 0xdf then some .beginMap
  else if b = 0xd4 ∨ b = 0xd5 ∨ b = 0xd6 ∨ b = 0xd7 ∨ b = 0xd8 ∨ b = 0xc7 ∨ b = 0xc8 ∨ b = 0xc9 then some .extended
  else none

variable {b : UInt8}

theorem tagKind_fixstr (h : b &&& 0b11100000 = 0b10100000) : tagKind b = some .string := if_pos h

/-- The first four bits tell arrays and maps from strings. -/
theorem and_of_fix {fix : UInt8} (h : b &&& 0b11110000 = fix) : b &&& 0b11100000 = fix &&& 0b11100000 := by
  rw [← h, UInt8.and_assoc]
  rfl

theorem tagKind_fixarray (h : b &&& 0b11110000 = 0b10010000) : tagKind b = some .beginArray := by
  have hstring : ¬b &&& 0b11100000 = 0b10100000 := by
    rw [and_of_fix h]
    decide
  rw [tagKind, if_neg hstring, if_pos h]

theorem tagKind_fixmap (h : b &&& 0b11110000 = 0b10000000) : tagKind b = some .beginMap := by
  have hstring : ¬b &&& 0b11100000 = 0b10100000 := by
    rw [and_of_fix h]
    decide
  have harray : ¬b &&& 0b11110000 = 0b10010000 := by
    rw [h]
    decide
  rw [tagKind, if_neg hstring, if_neg harray, if_pos h]

/-! ## Reading what was written -/

section Reading

variable {α : Type}

variable {code : Reader α} {input header l : List UInt8} {b : UInt8} {count : Nat} {kind : Kind} {item : Item}
  {κ ν : Type}

theorem rewind_some {rest : List UInt8} {a : α} (h : code.run input = some (a, rest)) :
    rewind code input = (some a, rest) := by
  rw [rewind, h]

theorem rewind_none (h : code.run input = none) :
    rewind code input = (none, input) := by
  rw [rewind, h]

theorem run_byte_bind (next : UInt8 → Reader α) (b : UInt8) (rest : List UInt8) :
    (byte >>= next).run (b :: rest) = (next b).run rest := run_bind_of (run_byte b rest)

theorem run_failIf_false (rest : List UInt8) : (failIf false).run rest = some ((), rest) := rfl

theorem run_consumeByteIf (b : UInt8) (rest : List UInt8) : (consumeByteIf b).run (b :: rest) = some ((), rest) := by
  rw [consumeByteIf, run_byte_bind]
  simp [failIf]

theorem run_consumeByteIf_ne {c : UInt8} (h : c ≠ b) (rest : List UInt8) :
    (consumeByteIf b).run (c :: rest) = none := by
  rw [consumeByteIf, run_byte_bind]
  simp [failIf, h]

theorem run_bind_none {β : Type} {next : α → Reader β} (h : code.run input = none) :
    (code >>= next).run input = none := by
  simp [StateT.run_bind, h]

/-- A number after its tag. -/
theorem run_number {n x : Nat} (hx : x < 256 ^ n) (tag : UInt8) (f : Nat → α) (rest : List UInt8) :
    StateT.run (do
      consumeByteIf tag
      return f (← readBigEndian n 0)) (tag :: appendBigEndian n x ++ rest) = some (f x, rest) := by
  rw [cons_append, run_bind_of (run_consumeByteIf tag _), appendBigEndian,
    run_bind_of (run_readBigEndian hx rest)]
  rfl

theorem run_readCount {n x bound : Nat} (hx : x < 256 ^ n) (hbound : bound < x) (rest : List UInt8) :
    (readCount n bound).run (appendBigEndian n x ++ rest) = some (x, rest) := by
  have hnot : (decide (x ≤ bound)) = false := decide_eq_false (Nat.not_le.mpr hbound)
  rw [readCount, appendBigEndian, run_bind_of (run_readBigEndian hx rest), hnot,
    run_bind_of (run_failIf_false rest)]
  rfl

theorem appendBigEndian_one {x : Nat} : appendBigEndian 1 x = [UInt8.ofNat x] := by
  rw [appendBigEndian, littleEndian_byteSwapped]
  rfl

theorem fixstr_spec : ∀ count ≤ 31, (0b10100000 ||| UInt8.ofNat count) &&& 0b11100000 = 0b10100000 ∧
    ((0b10100000 ||| UInt8.ofNat count) &&& 0b00011111).toNat = count := by decide

theorem fixarray_spec : ∀ count ≤ 0xf, (0b10010000 ||| UInt8.ofNat count) &&& 0b11110000 = 0b10010000 ∧
    ((0b10010000 ||| UInt8.ofNat count) &&& 0b00001111).toNat = count := by decide

theorem fixmap_spec : ∀ count ≤ 0xf, (0b10000000 ||| UInt8.ofNat count) &&& 0b11110000 = 0b10000000 ∧
    ((0b10000000 ||| UInt8.ofNat count) &&& 0b00001111).toNat = count := by decide

/-- Bytes that begin with the tag of a type. -/
def Tagged (kind : Kind) (l : List UInt8) : Prop := ∃ tag rest, l = tag :: rest ∧ tagKind tag = some kind

theorem stringHeader_spec (h : stringHeader count = some header) (rest : List UInt8) :
    stringLength.run (header ++ rest) = some (count, rest) ∧ Tagged .string header := by
  unfold stringHeader at h
  split at h
  · rename_i hle
    cases h
    obtain ⟨hfix, hcount⟩ := fixstr_spec count hle
    refine ⟨?_, _, _, rfl, tagKind_fixstr hfix⟩
    rw [singleton_append, stringLength, run_byte_bind, if_pos hfix, hcount]
    rfl
  · rename_i hfix
    split at h
    · rename_i hle
      cases h
      refine ⟨?_, _, _, rfl, rfl⟩
      show stringLength.run (0xd9 :: ([UInt8.ofNat count] ++ rest)) = _
      rw [stringLength, run_byte_bind, if_neg (by decide), if_pos rfl, ← appendBigEndian_one]
      exact run_readCount (by omega) (by omega) rest
    · rename_i h8
      split at h
      · rename_i hle
        cases h
        refine ⟨?_, _, _, rfl, rfl⟩
        rw [cons_append, stringLength, run_byte_bind, if_neg (by decide), if_neg (by decide), if_pos rfl]
        exact run_readCount (by omega) (by omega) rest
      · rename_i h16
        split at h
        · rename_i hle
          cases h
          refine ⟨?_, _, _, rfl, rfl⟩
          rw [cons_append, stringLength, run_byte_bind, if_neg (by decide), if_neg (by decide),
            if_neg (by decide), if_pos rfl]
          exact run_readCount (by omega) (by omega) rest
        · cases h

theorem binaryHeader_spec (h : binaryHeader count = some header) (rest : List UInt8) :
    binaryLength.run (header ++ rest) = some (count, rest) ∧ Tagged .binary header := by
  unfold binaryHeader at h
  split at h
  · rename_i hle
    cases h
    have hcount : (UInt8.ofNat count).toNat = count := by
      rw [UInt8.toNat_ofNat']
      omega
    refine ⟨?_, _, _, rfl, rfl⟩
    show binaryLength.run (0xc4 :: UInt8.ofNat count :: rest) = _
    rw [binaryLength, run_byte_bind, if_pos rfl, run_byte_bind, hcount]
    rfl
  · rename_i h8
    split at h
    · rename_i hle
      cases h
      refine ⟨?_, _, _, rfl, rfl⟩
      rw [cons_append, binaryLength, run_byte_bind, if_neg (by decide), if_pos rfl]
      exact run_readCount (by omega) (by omega) rest
    · rename_i h16
      split at h
      · rename_i hle
        cases h
        refine ⟨?_, _, _, rfl, rfl⟩
        rw [cons_append, binaryLength, run_byte_bind, if_neg (by decide), if_neg (by decide), if_pos rfl]
        exact run_readCount (by omega) (by omega) rest
      · cases h

/-- Arrays and maps, for tags that are told apart. -/
theorem aggregateHeader_spec {fix tag16 tag32 : UInt8}
    (hfix : ∀ count ≤ 0xf, (fix ||| UInt8.ofNat count) &&& 0b11110000 = fix ∧
      ((fix ||| UInt8.ofNat count) &&& 0b00001111).toNat = count)
    (hkind : ∀ b, b &&& 0b11110000 = fix → tagKind b = some kind)
    (h16 : ¬tag16 &&& 0b11110000 = fix ∧ tagKind tag16 = some kind)
    (h32 : ¬tag32 &&& 0b11110000 = fix ∧ tag32 ≠ tag16 ∧ tagKind tag32 = some kind)
    (h : aggregateHeader fix tag16 tag32 count = some header) (rest : List UInt8) :
    (aggregateCount fix tag16 tag32).run (header ++ rest) = some (count, rest) ∧ Tagged kind header := by
  unfold aggregateHeader at h
  split at h
  · rename_i hle
    cases h
    obtain ⟨hand, hcount⟩ := hfix count hle
    refine ⟨?_, _, _, rfl, hkind _ hand⟩
    rw [singleton_append, aggregateCount, run_byte_bind, if_pos hand, hcount]
    rfl
  · rename_i hfixed
    split at h
    · rename_i hle
      cases h
      refine ⟨?_, _, _, rfl, h16.2⟩
      rw [cons_append, aggregateCount, run_byte_bind, if_neg h16.1, if_pos rfl]
      exact run_readCount (by omega) (by omega) rest
    · rename_i h65535
      split at h
      · rename_i hle
        cases h
        refine ⟨?_, _, _, rfl, h32.2.2⟩
        rw [cons_append, aggregateCount, run_byte_bind, if_neg h32.1, if_neg h32.2.1, if_pos rfl]
        exact run_readCount (by omega) (by omega) rest
      · cases h

theorem arrayHeader_spec (h : arrayHeader count = some header) (rest : List UInt8) :
    (aggregateCount 0b10010000 0xdc 0xdd).run (header ++ rest) = some (count, rest) ∧ Tagged .beginArray header :=
  aggregateHeader_spec fixarray_spec (fun _ => tagKind_fixarray) (by decide) (by decide) h rest

theorem mapHeader_spec (h : mapHeader count = some header) (rest : List UInt8) :
    (aggregateCount 0b10000000 0xde 0xdf).run (header ++ rest) = some (count, rest) ∧ Tagged .beginMap header :=
  aggregateHeader_spec fixmap_spec (fun _ => tagKind_fixmap) (by decide) (by decide) h rest

theorem extendedHeader_spec (h : extendedHeader count = some header) (rest : List UInt8) :
    extendedLength.run (header ++ rest) = some (count, rest) ∧ Tagged .extended header := by
  -- the fixed lengths
  by_cases hfix : count = 1 ∨ count = 2 ∨ count = 4 ∨ count = 8 ∨ count = 16
  · rcases hfix with rfl | rfl | rfl | rfl | rfl <;> cases h <;> exact ⟨rfl, _, _, rfl, rfl⟩
  · simp only [not_or] at hfix
    simp only [extendedHeader, hfix.1, hfix.2.1, hfix.2.2.1, hfix.2.2.2.1, hfix.2.2.2.2, if_false] at h
    split at h
    · rename_i hle
      cases h
      have hcount : (UInt8.ofNat count).toNat = count := by
        rw [UInt8.toNat_ofNat']
        omega
      refine ⟨?_, _, _, rfl, rfl⟩
      show extendedLength.run (0xc7 :: UInt8.ofNat count :: rest) = _
      rw [extendedLength, run_byte_bind, if_neg (by decide), if_neg (by decide), if_neg (by decide),
        if_neg (by decide), if_neg (by decide), if_pos rfl, run_byte_bind, hcount]
      have hnot : decide (count = 1 ∨ count = 2 ∨ count = 4 ∨ count = 8 ∨ count = 16) = false := by
        simp [hfix]
      simp only [hnot]
      rw [run_bind_of (run_failIf_false rest)]
      rfl
    · rename_i h8
      split at h
      · rename_i hle
        cases h
        refine ⟨?_, _, _, rfl, rfl⟩
        rw [cons_append, extendedLength, run_byte_bind, if_neg (by decide), if_neg (by decide),
          if_neg (by decide), if_neg (by decide), if_neg (by decide), if_neg (by decide), if_pos rfl]
        exact run_readCount (by omega) (by omega) rest
      · rename_i h16
        split at h
        · rename_i hle
          cases h
          refine ⟨?_, _, _, rfl, rfl⟩
          rw [cons_append, extendedLength, run_byte_bind, if_neg (by decide), if_neg (by decide),
            if_neg (by decide), if_neg (by decide), if_neg (by decide), if_neg (by decide), if_neg (by decide),
            if_pos rfl]
          exact run_readCount (by omega) (by omega) rest
        · cases h

/-- **An item is read back** by the read for its type. -/
theorem readItem_bytes (h : item.bytes = some l) (rest : List UInt8) :
    readItem item.kind (l ++ rest) = (some item, rest) := by
  cases item with
  | int64 i =>
    cases h
    have hread := rewind_some (run_number (n := 8) i.toUInt64.toNat_lt 0xd3
      (fun x => (UInt64.ofNat x).toInt64) rest)
    rw [UInt64.ofNat_toNat] at hread
    show (readInt64 (0xd3 :: appendBigEndian 8 i.toUInt64.toNat ++ rest)).map (Option.map Item.int64) id = _
    rw [readInt64, hread]
    rfl
  | uint64 i =>
    cases h
    have hread := rewind_some (run_number (n := 8) i.toNat_lt 0xcf (fun x => UInt64.ofNat x) rest)
    rw [UInt64.ofNat_toNat] at hread
    show (readUInt64 (0xcf :: appendBigEndian 8 i.toNat ++ rest)).map (Option.map Item.uint64) id = _
    rw [readUInt64, hread]
    rfl
  | uint8 i | nil =>
    cases h
    rfl
  | bool b =>
    cases h
    cases b <;> rfl
  | float32 bitPattern =>
    cases h
    have hread := rewind_some (run_number (n := 4) bitPattern.toNat_lt 0xca (fun x => UInt32.ofNat x) rest)
    rw [UInt32.ofNat_toNat] at hread
    show (readFloat32 (0xca :: appendBigEndian 4 bitPattern.toNat ++ rest)).map (Option.map Item.float32) id = _
    rw [readFloat32, hread]
    rfl
  | float64 bitPattern =>
    cases h
    have hread := rewind_some (run_number (n := 8) bitPattern.toNat_lt 0xcb (fun x => UInt64.ofNat x) rest)
    rw [UInt64.ofNat_toNat] at hread
    show (readFloat64 (0xcb :: appendBigEndian 8 bitPattern.toNat ++ rest)).map (Option.map Item.float64) id = _
    rw [readFloat64, hread]
    rfl
  | string s =>
    obtain ⟨header, hheader, rfl⟩ := map_eq_some_iff.mp h
    have hlength := (stringHeader_spec hheader (utf8 s ++ rest)).1
    show (readString _).map (Option.map Item.string) id = _
    rw [readString, rewind, append_assoc, run_bind_of hlength, run_bind_of (run_bytes (utf8 s) rest),
      decoding_utf8]
    rfl
  | binary data =>
    obtain ⟨header, hheader, rfl⟩ := map_eq_some_iff.mp h
    have hlength := (binaryHeader_spec hheader (data ++ rest)).1
    show (readBinary _).map (Option.map Item.binary) id = _
    rw [readBinary, rewind, append_assoc, run_bind_of hlength, run_bytes data rest]
    rfl
  | extended type data =>
    obtain ⟨header, hheader, rfl⟩ := map_eq_some_iff.mp h
    have hlength := (extendedHeader_spec hheader (type.toUInt8 :: data ++ rest)).1
    show (readExtended _).map _ id = _
    rw [readExtended, rewind, append_assoc, run_bind_of hlength, cons_append, run_byte_bind,
      run_bind_of (run_bytes data rest)]
    rfl
  | beginArray count =>
    show (readBeginArray _).map (Option.map Item.beginArray) id = _
    rw [readBeginArray, rewind_some (arrayHeader_spec h rest).1]
    rfl
  | beginMap count =>
    show (readBeginMap _).map (Option.map Item.beginMap) id = _
    rw [readBeginMap, rewind_some (mapHeader_spec h rest).1]
    rfl

theorem tagged_bytes (h : item.bytes = some l) : Tagged item.kind l := by
  have happend : ∀ {kind : Kind} {header : List UInt8} (more : List UInt8), Tagged kind header →
      Tagged kind (header ++ more) := by
    rintro kind header more ⟨tag, rest, rfl, htag⟩
    exact ⟨tag, rest ++ more, rfl, htag⟩
  cases item with
  | int64 | uint64 | uint8 | nil | float32 | float64 => cases h; exact ⟨_, _, rfl, rfl⟩
  | bool b => cases h; cases b <;> exact ⟨_, _, rfl, rfl⟩
  | string s =>
    obtain ⟨header, hheader, rfl⟩ := map_eq_some_iff.mp h
    exact happend _ (stringHeader_spec hheader []).2
  | binary data =>
    obtain ⟨header, hheader, rfl⟩ := map_eq_some_iff.mp h
    exact happend _ (binaryHeader_spec hheader []).2
  | extended type data =>
    obtain ⟨header, hheader, rfl⟩ := map_eq_some_iff.mp h
    exact happend _ (extendedHeader_spec hheader []).2
  | beginArray count => exact (arrayHeader_spec h []).2
  | beginMap count => exact (mapHeader_spec h []).2

/-- A number is not read where another tag stands. -/
theorem rewind_number_none {tag : UInt8} (h : b ≠ tag) (next : Unit → Reader α) (rest : List UInt8) :
    rewind (consumeByteIf tag >>= next) (b :: rest) = (none, b :: rest) :=
  rewind_none (run_bind_none (run_consumeByteIf_ne h rest))

/-- Arrays and maps are not read where another tag stands. -/
theorem run_aggregateCount_none {fix tag16 tag32 : UInt8} (hfix : ¬b &&& 0b11110000 = fix) (h16 : b ≠ tag16)
    (h32 : b ≠ tag32) (rest : List UInt8) : (aggregateCount fix tag16 tag32).run (b :: rest) = none := by
  rw [aggregateCount, run_byte_bind, if_neg hfix, if_neg h16, if_neg h32]
  rfl

/-- **Other reads have no effect**: they look at the first byte, which stands for one type only. -/
theorem readItem_of_tagKind_ne (h : tagKind b ≠ some kind) (rest : List UInt8) :
    readItem kind (b :: rest) = (none, b :: rest) := by
  have hne : ∀ {tag : UInt8}, tagKind tag = some kind → b ≠ tag := fun htag heq => h (heq ▸ htag)
  cases kind with
  | int64 =>
    have hread : readInt64 (b :: rest) = (none, b :: rest) := rewind_number_none (hne rfl) _ rest
    rw [readItem, hread]
    rfl
  | uint64 =>
    have hread : readUInt64 (b :: rest) = (none, b :: rest) := rewind_number_none (hne rfl) _ rest
    rw [readItem, hread]
    rfl
  | uint8 =>
    have hread : readByte (b :: rest) = (none, b :: rest) := rewind_number_none (hne rfl) _ rest
    rw [readItem, hread]
    rfl
  | nil =>
    have hread : readNil (b :: rest) = (none, b :: rest) := rewind_none (run_consumeByteIf_ne (hne rfl) rest)
    rw [readItem, hread]
    rfl
  | bool =>
    have hread : readBool (b :: rest) = (none, b :: rest) := by
      refine rewind_none ?_
      rw [run_byte_bind, if_neg (hne rfl), if_neg (hne rfl)]
      rfl
    rw [readItem, hread]
    rfl
  | float32 =>
    have hread : readFloat32 (b :: rest) = (none, b :: rest) := rewind_number_none (hne rfl) _ rest
    rw [readItem, hread]
    rfl
  | float64 =>
    have hread : readFloat64 (b :: rest) = (none, b :: rest) := rewind_number_none (hne rfl) _ rest
    rw [readItem, hread]
    rfl
  | string =>
    have hread : readString (b :: rest) = (none, b :: rest) := by
      refine rewind_none (run_bind_none ?_)
      rw [stringLength, run_byte_bind, if_neg fun hfix => h (tagKind_fixstr hfix), if_neg (hne rfl),
        if_neg (hne rfl), if_neg (hne rfl)]
      rfl
    rw [readItem, hread]
    rfl
  | binary =>
    have hread : readBinary (b :: rest) = (none, b :: rest) := by
      refine rewind_none (run_bind_none ?_)
      rw [binaryLength, run_byte_bind, if_neg (hne rfl), if_neg (hne rfl), if_neg (hne rfl)]
      rfl
    rw [readItem, hread]
    rfl
  | extended =>
    have hread : readExtended (b :: rest) = (none, b :: rest) := by
      refine rewind_none (run_bind_none ?_)
      rw [extendedLength, run_byte_bind, if_neg (hne rfl), if_neg (hne rfl), if_neg (hne rfl), if_neg (hne rfl),
        if_neg (hne rfl), if_neg (hne rfl), if_neg (hne rfl), if_neg (hne rfl)]
      rfl
    rw [readItem, hread]
    rfl
  | beginArray =>
    have hread : readBeginArray (b :: rest) = (none, b :: rest) :=
      rewind_none (run_aggregateCount_none (fun hfix => h (tagKind_fixarray hfix)) (hne rfl) (hne rfl) rest)
    rw [readItem, hread]
    rfl
  | beginMap =>
    have hread : readBeginMap (b :: rest) = (none, b :: rest) :=
      rewind_none (run_aggregateCount_none (fun hfix => h (tagKind_fixmap hfix)) (hne rfl) (hne rfl) rest)
    rw [readItem, hread]
    rfl

theorem readItem_other (h : item.bytes = some l) (hkind : kind ≠ item.kind) (rest : List UInt8) :
    readItem kind (l ++ rest) = (none, l ++ rest) := by
  obtain ⟨tag, more, rfl, htag⟩ := tagged_bytes h
  refine readItem_of_tagKind_ne ?_ _
  rw [htag]
  exact fun heq => hkind (some.inj heq).symm

/-- `readItem` hides nothing of what is read. -/
theorem eq_of_map_item {item : α → Item} (hitem : Function.Injective item) {a : Option α}
    {read : Option α × List UInt8} (h : read.map (Option.map item) id = (a.map item, l)) : read = (a, l) := by
  rw [Prod.map, Prod.mk.injEq] at h
  exact Prod.ext (Option.map_injective hitem h.1) h.2

/-- `readArray` looks at the beginning of an array first. -/
theorem readArray_eq_none (h : readItem .beginArray input = (none, input)) (decodeElement : Read α) :
    readArray decodeElement input = (none, input) := by
  have hread : readBeginArray input = (none, input) := eq_of_map_item (fun _ _ => Item.beginArray.inj) h
  rw [readArray, hread]

theorem readDictionary_eq_none [DecidableEq κ] (h : readItem .beginMap input = (none, input)) (decodeKey : Read κ)
    (decodeValue : Read ν) :
    readDictionary decodeKey decodeValue input = (none, input) := by
  have hread : readBeginMap input = (none, input) := eq_of_map_item (fun _ _ => Item.beginMap.inj) h
  rw [readDictionary, hread]

end Reading

/-! ## Sequences -/

/-- What the calls write. -/
def items (ops : List Op) : List Item := ops.filterMap Op.item?

/-- The bytes of items; none where the encoder stops the program. -/
def bytesOf : List Item → Option (List UInt8)
  | [] => some []
  | item :: rest => item.bytes.bind fun l => (bytesOf rest).map (l ++ ·)

/-- The encoder after `n` values were appended. -/
def Encoder.advance (enableIntegrityChecks : Bool) (e : Encoder) (n : Nat) (l : List UInt8) : Encoder where
  bytes := e.bytes ++ l
  expectedElementCount := e.expectedElementCount
  actualElementCount :=
    if enableIntegrityChecks then e.actualElementCount.modifyHead (· + n) else e.actualElementCount

theorem bytesOf_append (l l' : List Item) :
    bytesOf (l ++ l') = (bytesOf l).bind fun b => (bytesOf l').map (b ++ ·) := by
  induction l with
  | nil =>
    rw [nil_append, bytesOf, bind_some]
    cases bytesOf l' <;> rfl
  | cons item l ih =>
    rw [cons_append, bytesOf, bytesOf, ih]
    cases item.bytes with
    | none => rfl
    | some b =>
      cases bytesOf l with
      | none => rfl
      | some b' =>
        cases bytesOf l' with
        | none => rfl
        | some b'' => simp

namespace Encoder

variable {enableIntegrityChecks : Bool}

theorem calls_append (e : Encoder) (ops ops' : List Op) : e.calls enableIntegrityChecks (ops ++ ops') =
    (e.calls enableIntegrityChecks ops).bind fun e' => e'.calls enableIntegrityChecks ops' := by
  induction ops generalizing e with
  | nil => rfl
  | cons op ops ih =>
    rw [cons_append, calls, calls]
    cases e.call enableIntegrityChecks op with
    | none => rfl
    | some e' => exact ih e'

theorem advance_advance (e : Encoder) (n m : Nat) (l l' : List UInt8) :
    (e.advance enableIntegrityChecks n l).advance enableIntegrityChecks m l' =
      e.advance enableIntegrityChecks (m + n) (l ++ l') := by
  cases enableIntegrityChecks with
  | false => simp [advance]
  | true =>
    cases h : e.actualElementCount with
    | nil => simp [advance, h]
    | cons a rest => simp [advance, h, Nat.add_comm, Nat.add_left_comm]

theorem advance_zero (e : Encoder) : e.advance enableIntegrityChecks 0 [] = e := by
  cases e with
  | mk bytes expected actual =>
    cases enableIntegrityChecks with
    | false => simp [advance]
    | true => cases actual <;> simp [advance]

/-- The end of an array or a map that has as many elements as it says. -/
theorem endElements_beginElements (e : Encoder) (count : Nat) (l : List UInt8) :
    endElements enableIntegrityChecks
        ((beginElements enableIntegrityChecks e count).advance enableIntegrityChecks count l) =
      some (e.advance enableIntegrityChecks 1 l) := by
  cases enableIntegrityChecks with
  | false => rfl
  | true => simp [endElements, beginElements, advance, addedElement]

theorem addedElement_appendBytes (e : Encoder) (l : List UInt8) :
    addedElement enableIntegrityChecks (e.appendBytes l) = e.advance enableIntegrityChecks 1 l := by
  cases enableIntegrityChecks <;> rfl

theorem appendBytes_advance (e : Encoder) (n : Nat) (l l' : List UInt8) :
    (e.appendBytes l).advance enableIntegrityChecks n l' = e.advance enableIntegrityChecks n (l ++ l') := by
  simp [appendBytes, advance]

/-- **Balanced calls write their items**, one after the other. -/
theorem calls_balanced {n : Nat} {ops : List Op} (h : Balanced n ops) (e : Encoder) :
    e.calls enableIntegrityChecks ops = (bytesOf (items ops)).map (e.advance enableIntegrityChecks n) := by
  -- an array or a map: its beginning, its elements, its end
  have haggregate : ∀ (item : Item) {op close : Op} {m count : Nat} {elements ops : List Op},
      op.item? = some item → close.item? = none →
      (∀ e : Encoder, e.call enableIntegrityChecks op =
        item.bytes.map fun l => beginElements enableIntegrityChecks (e.appendBytes l) count) →
      (∀ e : Encoder, e.call enableIntegrityChecks close = endElements enableIntegrityChecks e) →
      (∀ e : Encoder, e.calls enableIntegrityChecks elements =
        (bytesOf (items elements)).map (e.advance enableIntegrityChecks count)) →
      (∀ e : Encoder, e.calls enableIntegrityChecks ops =
        (bytesOf (items ops)).map (e.advance enableIntegrityChecks m)) →
      ∀ e : Encoder, e.calls enableIntegrityChecks (op :: elements ++ close :: ops) =
        (bytesOf (items (op :: elements ++ close :: ops))).map (e.advance enableIntegrityChecks (m + 1)) := by
    intro item op close m count elements ops hitem hnone hopen hclose helements hops e
    have hitems : items (op :: elements ++ close :: ops) = item :: (items elements ++ items ops) := by
      simp [items, filterMap_append, hitem, hnone]
    rw [hitems, bytesOf, bytesOf_append, cons_append, calls, hopen]
    cases item.bytes with
    | none => rfl
    | some l =>
      simp only [map_some, bind_some]
      rw [calls_append, helements]
      cases bytesOf (items elements) with
      | none => rfl
      | some l₁ =>
        simp only [map_some, bind_some]
        rw [calls, hclose, endElements_beginElements, bind_some, hops]
        cases bytesOf (items ops) with
        | none => rfl
        | some l₂ =>
          simp only [map_some]
          rw [advance_advance, appendBytes_advance]
  induction h generalizing e with
  | nil =>
    rw [calls]
    simp [items, bytesOf, advance_zero]
  | @scalar n ops item _ _ _ ih =>
    have hitems : items (.append item :: ops) = item :: items ops := rfl
    rw [hitems, bytesOf, calls, call]
    cases item.bytes with
    | none => rfl
    | some l =>
      simp only [map_some, bind_some]
      rw [addedElement_appendBytes, ih]
      cases bytesOf (items ops) with
      | none => rfl
      | some l' =>
        simp only [map_some]
        rw [advance_advance]
  | @array n count elements ops _ _ ihelements ihops =>
    exact haggregate (.beginArray count) rfl rfl (fun _ => rfl) (fun _ => rfl) ihelements ihops e
  | @map n count elements ops _ _ ihelements ihops =>
    exact haggregate (.beginMap count) rfl rfl (fun _ => rfl) (fun _ => rfl) ihelements ihops e

end Encoder

/-- What fits is written. -/
theorem exists_bytes {item : Item} (h : item.Fits) : ∃ l, item.bytes = some l := by
  have hmax : ∀ {count : Nat}, count < 2 ^ 32 → count ≤ 0xffffffff := fun h => by omega
  have hsome : ∀ {header : Option (List UInt8)} (f : List UInt8 → List UInt8), header.isSome = true →
      ∃ l, header.map f = some l := by
    intro header f hheader
    obtain ⟨l, rfl⟩ := isSome_iff_exists.mp hheader
    exact ⟨f l, rfl⟩
  have haggregate : ∀ {fix tag16 tag32 : UInt8} {count : Nat}, count < 2 ^ 32 →
      ∃ l, aggregateHeader fix tag16 tag32 count = some l := by
    intro fix tag16 tag32 count hcount
    refine isSome_iff_exists.mp ?_
    unfold aggregateHeader
    split_ifs with _ _ hle
    · rfl
    · rfl
    · rfl
    · exact absurd (hmax hcount) hle
  cases item with
  | string s =>
    refine hsome _ ?_
    unfold stringHeader
    split_ifs with _ _ _ hle
    · rfl
    · rfl
    · rfl
    · rfl
    · exact absurd (hmax h) hle
  | binary data =>
    refine hsome _ ?_
    unfold binaryHeader
    split_ifs with _ _ hle
    · rfl
    · rfl
    · rfl
    · exact absurd (hmax h) hle
  | extended type data =>
    refine hsome _ ?_
    unfold extendedHeader
    split_ifs with _ _ _ _ _ _ _ hle
    all_goals first
      | rfl
      | exact absurd (hmax h) hle
  | beginArray count | beginMap count => exact haggregate h
  | _ => exact ⟨_, rfl⟩

theorem exists_bytesOf {l : List Item} (h : ∀ item ∈ l, item.Fits) : ∃ b, bytesOf l = some b := by
  induction l with
  | nil => exact ⟨[], rfl⟩
  | cons item l ih =>
    obtain ⟨b, hb⟩ := exists_bytes (h item mem_cons_self)
    obtain ⟨b', hb'⟩ := ih fun item hitem => h item (mem_cons_of_mem _ hitem)
    exact ⟨b ++ b', by rw [bytesOf, hb, hb']; rfl⟩

theorem readItems_bytesOf {l : List Item} {b : List UInt8} (h : bytesOf l = some b) (rest : List UInt8) :
    readItems (l.map Item.kind) (b ++ rest) = some (l, rest) := by
  induction l generalizing b with
  | nil =>
    cases h
    rfl
  | cons item l ih =>
    rw [bytesOf] at h
    obtain ⟨b₁, hb₁, h⟩ := bind_eq_some_iff.mp h
    obtain ⟨b₂, hb₂, rfl⟩ := map_eq_some_iff.mp h
    rw [map_cons, readItems, append_assoc, readItem_bytes hb₁]
    simp only [ih hb₂]
    rfl

theorem exists_of_bytesOf_append {l l' : List Item} {b : List UInt8} (h : bytesOf (l ++ l') = some b) :
    ∃ b₁ b₂, bytesOf l = some b₁ ∧ bytesOf l' = some b₂ ∧ b = b₁ ++ b₂ := by
  rw [bytesOf_append] at h
  obtain ⟨b₁, hb₁, h⟩ := bind_eq_some_iff.mp h
  obtain ⟨b₂, hb₂, rfl⟩ := map_eq_some_iff.mp h
  exact ⟨b₁, b₂, hb₁, hb₂, rfl⟩

/-- The bytes of these items are read as this value. -/
def ReadsBack {α : Type} (decode : Read α) (written : List Item) (a : α) : Prop :=
  ∀ b, bytesOf written = some b → ∀ rest, decode (b ++ rest) = (some a, rest)

/-- An item is read back by the read for its type. -/
theorem readsBack_item {α : Type} {item : α → Item} (hitem : Function.Injective item) {read : Read α} {a : α}
    (hread : ∀ input, readItem (item a).kind input = (read input).map (Option.map item) id) :
    ReadsBack read [item a] a := by
  intro b hb rest
  obtain ⟨l, hl, h⟩ := bind_eq_some_iff.mp hb
  cases h
  rw [show (fun x => l ++ x) [] = l from append_nil l]
  exact eq_of_map_item (a := some a) hitem ((hread _).symm.trans (readItem_bytes hl rest))

section Aggregates

variable {α κ ν : Type} {written : α → List Item} {decodeElement : Read α} {array : List α}
variable [DecidableEq κ] {writtenKey : κ → List Item} {writtenValue : ν → List Item} {decodeKey : Read κ}
  {decodeValue : Read ν} {dict : List (κ × ν)} {b : List UInt8}

section

variable (h : ∀ a ∈ array, ReadsBack decodeElement (written a) a)
include h

theorem readElements_written
    (hb : bytesOf (array.flatMap written) = some b) (rest : List UInt8) :
    readElements decodeElement array.length (b ++ rest) = (some array, rest) := by
  induction array generalizing b with
  | nil =>
    cases hb
    rfl
  | cons a array ih =>
    rw [flatMap_cons] at hb
    obtain ⟨b₁, b₂, hb₁, hb₂, rfl⟩ := exists_of_bytesOf_append hb
    rw [length_cons, readElements, append_assoc, h a mem_cons_self b₁ hb₁]
    simp only [ih (fun x hx => h x (mem_cons_of_mem _ hx)) hb₂, map_some]

/-- An array is read back with the matching reads of its elements. -/
theorem readsBack_array :
    ReadsBack (readArray decodeElement) (.beginArray array.length :: array.flatMap written) array := by
  intro b hb rest
  obtain ⟨b₁, b₂, hb₁, hb₂, rfl⟩ := exists_of_bytesOf_append (l := [.beginArray array.length]) hb
  have hread : readBeginArray (b₁ ++ (b₂ ++ rest)) = (some array.length, b₂ ++ rest) :=
    readsBack_item (fun _ _ => Item.beginArray.inj) (fun _ => rfl) b₁ hb₁ _
  rw [readArray, append_assoc, hread]
  exact readElements_written h hb₂ rest

end

theorem setValue_of_notMem {key : κ} (h : key ∉ dict.map Prod.fst) (value : ν) :
    setValue key value dict = dict ++ [(key, value)] := by
  induction dict with
  | nil => rfl
  | cons pair dict ih =>
    rw [map_cons, mem_cons, not_or] at h
    rw [setValue, if_neg (Ne.symm h.1), ih h.2, cons_append]

theorem readPairs_written {before : List (κ × ν)} (hnodup : ((before ++ dict).map Prod.fst).Nodup)
    (h : ∀ pair ∈ dict, ReadsBack decodeKey (writtenKey pair.1) pair.1 ∧
      ReadsBack decodeValue (writtenValue pair.2) pair.2)
    (hb : bytesOf (dict.flatMap fun pair => writtenKey pair.1 ++ writtenValue pair.2) = some b) (rest : List UInt8) :
    readPairs decodeKey decodeValue dict.length before (b ++ rest) = (some (before ++ dict), rest) := by
  induction dict generalizing before b with
  | nil =>
    cases hb
    rw [append_nil]
    rfl
  | cons pair dict ih =>
    rw [flatMap_cons, append_assoc] at hb
    obtain ⟨b₁, _, hb₁, hpairs, rfl⟩ := exists_of_bytesOf_append hb
    obtain ⟨b₃, b₄, hb₃, hb₄, rfl⟩ := exists_of_bytesOf_append hpairs
    obtain ⟨hkey, hvalue⟩ := h pair mem_cons_self
    -- the key is not among those that were read before
    have hnew : pair.1 ∉ before.map Prod.fst := by
      rw [map_append, map_cons] at hnodup
      exact fun hmem => (nodup_append.mp hnodup).2.2 _ hmem _ mem_cons_self rfl
    rw [length_cons, readPairs, append_assoc, append_assoc, hkey b₁ hb₁]
    simp only [hvalue b₃ hb₃]
    rw [setValue_of_notMem hnew, ih (by rwa [append_assoc]) (fun p hp => h p (mem_cons_of_mem _ hp)) hb₄,
      append_assoc]
    rfl

/-- A dictionary is read back with the matching reads of its keys and values. -/
theorem readsBack_dictionary (hnodup : (dict.map Prod.fst).Nodup)
    (h : ∀ pair ∈ dict, ReadsBack decodeKey (writtenKey pair.1) pair.1 ∧
      ReadsBack decodeValue (writtenValue pair.2) pair.2) :
    ReadsBack (readDictionary decodeKey decodeValue)
      (.beginMap dict.length :: dict.flatMap fun pair => writtenKey pair.1 ++ writtenValue pair.2) dict := by
  intro b hb rest
  obtain ⟨b₁, b₂, hb₁, hb₂, rfl⟩ := exists_of_bytesOf_append (l := [.beginMap dict.length]) hb
  have hread : readBeginMap (b₁ ++ (b₂ ++ rest)) = (some dict.length, b₂ ++ rest) :=
    readsBack_item (fun _ _ => Item.beginMap.inj) (fun _ => rfl) b₁ hb₁ _
  rw [readDictionary, append_assoc, hread]
  exact readPairs_written (show (([] ++ dict).map Prod.fst).Nodup from hnodup) h hb₂ rest

end Aggregates

/-- **MessagePack coding**: balanced calls whose lengths and counts have encodings are not stopped, in debug builds or
    others; the matching reads give back what was written and consume everything, those of arrays and dictionaries with
    the matching reads of their elements too; and at every position a read for another type gives nothing and consumes
    nothing. -/
theorem msgPack_coding (enableIntegrityChecks : Bool) {n : Nat} {ops : List Op} (hbalanced : Balanced n ops) :
    ((∀ item ∈ items ops, item.Fits) → ∃ e, Encoder.calls enableIntegrityChecks {} ops = some e) ∧
      ∀ e, Encoder.calls enableIntegrityChecks {} ops = some e →
        readItems ((items ops).map Item.kind) e.bytes = some (items ops, []) ∧
        ∀ before item after, items ops = before ++ item :: after → ∃ rest,
          readItems (before.map Item.kind) e.bytes = some (before, rest) ∧
          (∀ kind ≠ item.kind, readItem kind rest = (none, rest)) ∧
          (item.kind ≠ .beginArray → ∀ (α : Type) (decodeElement : Read α),
            readArray decodeElement rest = (none, rest)) ∧
          (item.kind ≠ .beginMap → ∀ (κ ν : Type) [DecidableEq κ] (decodeKey : Read κ) (decodeValue : Read ν),
            readDictionary decodeKey decodeValue rest = (none, rest)) ∧
          (∀ (α : Type) (written : α → List Item) (decodeElement : Read α) (array : List α) (next : List Item),
            item :: after = .beginArray array.length :: (array.flatMap written ++ next) →
            (∀ a ∈ array, ReadsBack decodeElement (written a) a) →
            ∃ rest', readArray decodeElement rest = (some array, rest') ∧
              readItems (next.map Item.kind) rest' = some (next, [])) ∧
          (∀ (κ ν : Type) [DecidableEq κ] (writtenKey : κ → List Item) (writtenValue : ν → List Item)
            (decodeKey : Read κ) (decodeValue : Read ν) (dict : List (κ × ν)) (next : List Item),
            item :: after = .beginMap dict.length ::
              ((dict.flatMap fun pair => writtenKey pair.1 ++ writtenValue pair.2) ++ next) →
            (dict.map Prod.fst).Nodup →
            (∀ pair ∈ dict, ReadsBack decodeKey (writtenKey pair.1) pair.1 ∧
              ReadsBack decodeValue (writtenValue pair.2) pair.2) →
            ∃ rest', readDictionary decodeKey decodeValue rest = (some dict, rest') ∧
              readItems (next.map Item.kind) rest' = some (next, [])) := by
  rw [Encoder.calls_balanced hbalanced]
  refine ⟨fun hfits => ?_, fun e he => ?_⟩
  · obtain ⟨b, hb⟩ := exists_bytesOf hfits
    exact ⟨_, by rw [hb]; rfl⟩
  · obtain ⟨b, hb, rfl⟩ := map_eq_some_iff.mp he
    have hbytes : (Encoder.advance enableIntegrityChecks {} n b).bytes = b := nil_append b
    have hend : ∀ {l : List Item} {b : List UInt8}, bytesOf l = some b →
        readItems (l.map Item.kind) b = some (l, []) := by
      intro l b hb
      have hread := readItems_bytesOf hb []
      rwa [append_nil] at hread
    rw [hbytes]
    refine ⟨hend hb, fun before item after hitems => ?_⟩
    -- the position after the items before
    rw [hitems] at hb
    obtain ⟨b₁, b₂, hb₁, hb₂, rfl⟩ := exists_of_bytesOf_append hb
    have hother : ∀ kind ≠ item.kind, readItem kind b₂ = (none, b₂) := by
      obtain ⟨b₃, hb₃, hb₂⟩ := bind_eq_some_iff.mp hb₂
      obtain ⟨b₄, -, rfl⟩ := map_eq_some_iff.mp hb₂
      exact fun kind hkind => readItem_other hb₃ hkind b₄
    -- what is read back is followed by what was written next
    have hback : ∀ {α : Type} {decode : Read α} {written next : List Item} {a : α}, item :: after = written ++ next →
        ReadsBack decode written a →
        ∃ rest', decode b₂ = (some a, rest') ∧ readItems (next.map Item.kind) rest' = some (next, []) := by
      intro α decode written next a hwritten hback
      rw [hwritten] at hb₂
      obtain ⟨b₃, b₄, hb₃, hb₄, rfl⟩ := exists_of_bytesOf_append hb₂
      exact ⟨b₄, hback b₃ hb₃ b₄, hend hb₄⟩
    exact ⟨b₂, readItems_bytesOf hb₁ _, hother,
      fun hkind α decodeElement => readArray_eq_none (hother _ (Ne.symm hkind)) decodeElement,
      fun hkind κ ν _ decodeKey decodeValue =>
        readDictionary_eq_none (hother _ (Ne.symm hkind)) decodeKey decodeValue,
      fun α written decodeElement array next hwritten h => hback hwritten (readsBack_array h),
      fun κ ν _ writtenKey writtenValue decodeKey decodeValue dict next hwritten hnodup h =>
        hback hwritten (readsBack_dictionary hnodup h)⟩

/-- An array of a number and an array with a truth value, after a dictionary of arrays. -/
def nestedArray : List Op :=
  [.beginMap 1, .append (.uint8 3), .beginArray 2, .append (.uint64 7), .append (.uint64 8), .endArray, .endMap,
    .beginArray 2, .append (.uint64 7), .beginArray 1, .append (.bool true), .endArray, .endArray]

theorem nestedArray_balanced : Balanced 2 nestedArray :=
  .map (.scalar (by decide) (by decide) (.array (.scalar (by decide) (by decide)
    (.scalar (by decide) (by decide) .nil)) .nil))
    (.array (.scalar (by decide) (by decide) (.array (.scalar (by decide) (by decide) .nil) .nil)) .nil)

/-- The dictionary is read with its arrays, and what follows it item by item. -/
theorem nestedArray_coding : ∃ e rest, Encoder.calls true {} nestedArray = some e ∧
    readDictionary readByte (readArray readUInt64) e.bytes = (some [(3, [7, 8])], rest) ∧
    readItems [.beginArray, .uint64, .beginArray, .bool] rest =
      some ([.beginArray 2, .uint64 7, .beginArray 1, .bool true], []) := by
  obtain ⟨hfits, hread⟩ := msgPack_coding true nestedArray_balanced
  obtain ⟨e, he⟩ := hfits (by
    intro item hitem
    simp only [items, nestedArray, Op.item?, filterMap_cons, filterMap_nil, mem_cons,
      not_mem_nil, or_false] at hitem
    rcases hitem with rfl | rfl | rfl | rfl | rfl | rfl | rfl | rfl | rfl <;> simp [Item.Fits])
  have huint64 : ∀ i ∈ [7, 8], ReadsBack readUInt64 [.uint64 i] i :=
    fun _ _ => readsBack_item (fun _ _ => Item.uint64.inj) fun _ => rfl
  have harray : ReadsBack (readArray readUInt64) [.beginArray 2, .uint64 7, .uint64 8] [7, 8] := readsBack_array huint64
  obtain ⟨rest, hbegin, -, -, -, -, hdictionary⟩ := (hread e he).2 [] (.beginMap 1) _ rfl
  cases hbegin
  obtain ⟨rest, hdict, hnext⟩ := hdictionary UInt8 (List UInt64) (fun i => [.uint8 i])
    (fun _ => [.beginArray 2, .uint64 7, .uint64 8]) readByte (readArray readUInt64) [(3, [7, 8])] _ rfl
    (nodup_singleton _) (by
      intro pair hpair
      cases mem_singleton.mp hpair
      exact ⟨readsBack_item (fun _ _ => Item.uint8.inj) fun _ => rfl, harray⟩)
  exact ⟨e, rest, he, hdict, hnext⟩

end MsgPack

end Builra
