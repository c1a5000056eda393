import Builra.Core.Types
import Builra.Lib.Codec

namespace Builra

/-!
# `Basic.BinaryCoding` — `BinaryEncoder`, `BinaryDecoder` and the types coded with them

`encode` is what `coder.write(value)` appends to the encoder, `decode` is `coder.read(value)`. Reading past
the end of the data is undefined in the source and fails here. Running out of memory, which `SmallVector`
reports for buffers of four gigabytes, is not modelled.
-/

open Codec

/-! ## Numbers -/

instance : Coding UInt8 where
  encode value := [value]
  decode := byte

instance : Coding UInt16 where
  encode value := encode value.toUInt8 ++ encode (value >>> 8).toUInt8
  decode := do
    let low : UInt8 ← decode
    let high : UInt8 ← decode
    return low.toUInt16 ||| high.toUInt16 <<< 8

instance : Coding UInt32 where
  encode value := encode value.toUInt16 ++ encode (value >>> 16).toUInt16
  decode := do
    let low : UInt16 ← decode
    let high : UInt16 ← decode
    return low.toUInt32 ||| high.toUInt32 <<< 16

instance : Coding UInt64 where
  encode value := encode value.toUInt32 ++ encode (value >>> 32).toUInt32
  decode := do
    let low : UInt32 ← decode
    let high : UInt32 ← decode
    return low.toUInt64 ||| high.toUInt64 <<< 32

theorem join_uint16 (v : UInt16) : v.toUInt8.toUInt16 ||| (v >>> 8).toUInt8.toUInt16 <<< 8 = v := by
  apply UInt16.toBitVec_inj.mp
  exact join_halves (n := 8) v.toBitVec

theorem join_uint32 (v : UInt32) : v.toUInt16.toUInt32 ||| (v >>> 16).toUInt16.toUInt32 <<< 16 = v := by
  apply UInt32.toBitVec_inj.mp
  exact join_halves (n := 16) v.toBitVec

theorem join_uint64 (v : UInt64) : v.toUInt32.toUInt64 ||| (v >>> 32).toUInt32.toUInt64 <<< 32 = v := by
  apply UInt64.toBitVec_inj.mp
  exact join_halves (n := 32) v.toBitVec

instance : LawfulCoding UInt8 where
  decode_encode _ _ := rfl

instance : LawfulCoding UInt16 where
  decode_encode v rest := by
    refine (run_pair (fun low high : UInt8 => low.toUInt16 ||| high.toUInt16 <<< 8) _ _ rest).trans ?_
    rw [join_uint16]

instance : LawfulCoding UInt32 where
  decode_encode v rest := by
    refine (run_pair (fun low high : UInt16 => low.toUInt32 ||| high.toUInt32 <<< 16) _ _ rest).trans ?_
    rw [join_uint32]

instance : LawfulCoding UInt64 where
  decode_encode v rest := by
    refine (run_pair (fun low high : UInt32 => low.toUInt64 ||| high.toUInt64 <<< 32) _ _ rest).trans ?_
    rw [join_uint64]

@[simp]
theorem length_encode_uint32 (v : UInt32) : (encode v).length = 4 := rfl

@[simp]
theorem length_encode_uint64 (v : UInt64) : (encode v).length = 8 := rfl

/-! ## File information -/

structure FileTimestamp where
  seconds : UInt64 := 0
  nanoseconds : UInt64 := 0
deriving DecidableEq, Repr

structure FileChecksum where
  bytes : Fin 32 → UInt8 := fun _ => 0
deriving DecidableEq

structure FileInfo where
  device : UInt64 := 0
  inode : UInt64 := 0
  mode : UInt64 := 0
  size : UInt64 := 0
  modTime : FileTimestamp := {}
  checksum : FileChecksum := {}
deriving DecidableEq

/-- `FileInfo::isMissing`: the checksum does not count. -/
def FileInfo.isMissing (info : FileInfo) : Bool :=
  info.device = 0 && info.inode = 0 && info.mode = 0 && info.size = 0 &&
    info.modTime.seconds = 0 && info.modTime.nanoseconds = 0

instance : Coding FileTimestamp where
  encode value := encode value.seconds ++ encode value.nanoseconds
  decode := do
    let seconds : UInt64 ← decode
    let nanoseconds : UInt64 ← decode
    return { seconds := seconds, nanoseconds := nanoseconds }

instance : LawfulCoding FileTimestamp where
  decode_encode _ rest :=
    run_pair (fun seconds nanoseconds => FileTimestamp.mk seconds nanoseconds) _ _ rest

instance : Coding FileChecksum where
  encode value := (List.ofFn value.bytes).flatMap encode
  decode := do
    let bytes ← filled 32
    return { bytes := bytes }

instance : LawfulCoding FileChecksum where
  decode_encode value rest := run_bind_of (run_filled value.bytes rest)

instance : Coding FileInfo where
  encode value :=
    encode value.device ++ (encode value.inode ++ (encode value.mode ++ (encode value.size ++
      (encode value.modTime ++ encode value.checksum))))
  decode := do
    let device : UInt64 ← decode
    let inode : UInt64 ← decode
    let mode : UInt64 ← decode
    let size : UInt64 ← decode
    let modTime : FileTimestamp ← decode
    let checksum : FileChecksum ← decode
    return { device := device, inode := inode, mode := mode, size := size, modTime := modTime,
             checksum := checksum }

theorem encode_fileInfo_append (info : FileInfo) (rest : List UInt8) :
    encode info ++ rest = encode info.device ++ (encode info.inode ++ (encode info.mode ++
      (encode info.size ++ ((encode info.modTime ++ encode info.checksum) ++ rest)))) := by
  have h : encode info = encode info.device ++ (encode info.inode ++ (encode info.mode ++
      (encode info.size ++ (encode info.modTime ++ encode info.checksum)))) := rfl
  rw [h]
  simp only [List.append_assoc]

instance : LawfulCoding FileInfo where
  decode_encode info rest := by
    rw [encode_fileInfo_append]
    refine (run_bind_of (run_decode info.device _)).trans ?_
    refine (run_bind_of (run_decode info.inode _)).trans ?_
    refine (run_bind_of (run_decode info.mode _)).trans ?_
    refine (run_bind_of (run_decode info.size _)).trans ?_
    exact run_pair (fun modTime checksum =>
      FileInfo.mk info.device info.inode info.mode info.size modTime checksum) _ _ rest

/-! ## String lists -/

/-- `StringList`: the strings one after the other, each followed by a NUL. The size is a `uint64_t`. -/
structure StringList where
  contents : List UInt8 := []
  size_lt : contents.length < 2 ^ 64 := by decide

namespace StringList

theorem ext {l l' : StringList} (h : l.contents = l'.contents) : l = l' := by
  cases l
  cases l'
  cases h
  rfl

def size (l : StringList) : UInt64 := UInt64.ofNat l.contents.length

variable (values : List (List UInt8))

/-- The packed strings. -/
def pack : List UInt8 := values.flatMap (fun value => value ++ [0])

/-- `StringList(values)`. -/
def ofValues (h : (pack values).length < 2 ^ 64) : StringList where
  contents := pack values
  size_lt := h

/-- The C strings of a buffer, the first of which starts with the bytes `value`; none if the last one is not
    terminated and would be read past the end. -/
def cStrings (value : List UInt8) : List UInt8 → Option (List (List UInt8))
  | [] => if value = [] then some [] else none
  | b :: rest => if b = 0 then (cStrings [] rest).map (fun values => value :: values)
    else cStrings (value ++ [b]) rest

/-- `getValues`. -/
def getValues (l : StringList) : Option (List (List UInt8)) := cStrings [] l.contents

instance : Coding StringList where
  encode value := encode value.size ++ value.contents
  decode := do
    let size : UInt64 ← decode
    let contents ← bytes size.toNat
    if h : contents.length < 2 ^ 64 then return { contents := contents, size_lt := h } else failure

theorem toNat_size (l : StringList) : l.size.toNat = l.contents.length :=
  UInt64.toNat_ofNat_of_lt' l.size_lt

instance : LawfulCoding StringList where
  decode_encode l rest := by
    have hinput : encode l ++ rest = encode l.size ++ (l.contents ++ rest) := List.append_assoc _ _ _
    have hbytes := run_bytes l.contents rest
    rw [← toNat_size] at hbytes
    rw [hinput]
    refine (run_bind_of (run_decode l.size _)).trans ?_
    refine (run_bind_of hbytes).trans ?_
    rw [dif_pos l.size_lt]
    rfl

/-- A NUL-free string is read up to its end. -/
theorem cStrings_append (value : List UInt8) (hv : (0 : UInt8) ∉ value) (start rest : List UInt8) :
    cStrings start (value ++ 0 :: rest) = (cStrings [] rest).map (fun values => (start ++ value) :: values) := by
  induction value generalizing start with
  | nil => simp [cStrings]
  | cons b value ih =>
    obtain ⟨hb, hvalue⟩ : (0 : UInt8) ≠ b ∧ (0 : UInt8) ∉ value := by simpa using hv
    rw [List.cons_append, cStrings, if_neg hb.symm, ih hvalue]
    simp

/-- **NUL-free strings are read back.** -/
theorem getValues_ofValues (h : (pack values).length < 2 ^ 64)
    (hv : ∀ value ∈ values, (0 : UInt8) ∉ value) : (ofValues values h).getValues = some values := by
  show cStrings [] (pack values) = some values
  clear h
  induction values with
  | nil => rfl
  | cons value values ih =>
    have hpack : pack (value :: values) = value ++ 0 :: pack values := by simp [pack]
    rw [hpack, cStrings_append value (hv value (by simp)), ih (fun v hmem => hv v (by simp [hmem]))]
    rfl

end StringList

end Builra
