import Builra.Lib.Codec
import Builra.Util.Path

namespace Builra

/-!
# `Util.Headermap` — an in-memory "headermap" file

A binary hash table from header names to paths, with open addressing and linear probing. A bucket holds three
indices into a string table; a key index of 0 marks a free bucket. Strings are byte strings. A step that traps
gives `none`.
-/

/-- `tolower` in the C locale. -/
def tolower (c : UInt8) : UInt8 := if 65 ≤ c ∧ c ≤ 90 then c + 32 else c

/-! ## Numbers -/

variable (n : Nat)

def isPowerOfTwo : Bool := n ≠ 0 && n &&& (n - 1) = 0

/-- The next larger power of two of a 64-bit number: all bits below the highest are filled, then one is added. -/
def nextPowerOfTwo : Nat :=
  let result := n
  let result := result ||| result >>> 1
  let result := result ||| result >>> 2
  let result := result ||| result >>> 4
  let result := result ||| result >>> 8
  let result := result ||| result >>> 16
  let result := result ||| result >>> 32
  result + 1

def roundUpToPowerOfTwo : Nat := if isPowerOfTwo n then n else nextPowerOfTwo n

/-- `Int32(_:)`, which traps on overflow. -/
def int32 : Option Int := if n < 2 ^ 31 then some n else none

/-- `UInt32(_:)`, which traps on overflow. -/
def uint32 : Option Nat := if n < 2 ^ 32 then some n else none

/-! ## The table -/

/-- The contents of a bucket: the string table indices of the key, the path prefix and the path suffix. -/
structure Headermap.Bucket where
  keyIndex : Int := 0
  prefixIndex : Int := 0
  suffixIndex : Int := 0
deriving DecidableEq

structure Headermap where
  numEntries : Nat
  buckets : List Headermap.Bucket
  stringTable : List UInt8
  maxValueLength : Nat
  stringIndexMap : List UInt8 → Option Int

namespace Headermap

open Codec

/-- The headermap hash function. -/
def hashBytes (bytes : List UInt8) : Nat :=
  bytes.foldl (fun result byte => result + (tolower byte).toNat * 13) 0

/-- Create an empty headermap. -/
def empty (capacity : Nat) : Headermap where
  numEntries := 0
  buckets := List.replicate (roundUpToPowerOfTwo capacity) {}
  stringTable := [0]
  maxValueLength := 0
  stringIndexMap := fun bytes => if bytes = [] then some 0 else none

/-- The byte of the string table at an index. -/
def char (stringTable : List UInt8) (index : Int) : Option UInt8 :=
  if 0 ≤ index then stringTable[index.toNat]? else none

/-- Get the string at the given index in the string table. -/
def getString (stringTable : List UInt8) (index : Int) : Option (List UInt8) :=
  if 0 ≤ index ∧ index < stringTable.length then
    let bytes := stringTable.drop index.toNat
    if 0 ∈ bytes then some (bytes.takeWhile (fun byte => byte ≠ 0)) else none
  else none

/-- Get the index for the given string, or add it to the table. -/
def getStringIndex (hmap : Headermap) (bytes : List UInt8) : Option (Int × Headermap) :=
  match hmap.stringIndexMap bytes with
  | some index => some (index, hmap)
  | none => do
    let index ← int32 hmap.stringTable.length
    some (index, { hmap with
      stringTable := hmap.stringTable ++ bytes ++ [0]
      stringIndexMap := Function.update hmap.stringIndexMap bytes (some index) })

/-- The loop of `isEqualKey` over the offsets. -/
def isEqualKeyFrom (stringTable : List UInt8) (lhs rhs : Int) : List Nat → Option Bool
  | [] => none
  | offset :: rest => do
    let lhsChar := tolower (← char stringTable (lhs + offset))
    let rhsChar := tolower (← char stringTable (rhs + offset))
    if lhsChar ≠ rhsChar then some false
    else if lhsChar = 0 then some true
    else isEqualKeyFrom stringTable lhs rhs rest

/-- Check if the keys at two indices are equal, without case sensitivity. -/
def isEqualKey (stringTable : List UInt8) (lhs rhs : Int) : Option Bool :=
  if lhs = rhs then some true
  else isEqualKeyFrom stringTable lhs rhs (List.range stringTable.length)

/-- The loop of `insertItem` over the probes. -/
def insertItemFrom (hmap : Headermap) (hash : Nat) (bucket : Bucket) (replace : Bool) :
    List Nat → Option Headermap
  | [] => none
  | i :: rest => do
    let index := (hash + i) &&& (hmap.buckets.length - 1)
    let found ← hmap.buckets[index]?
    let free := found.keyIndex = 0
    let stop ← if free then some true else isEqualKey hmap.stringTable found.keyIndex bucket.keyIndex
    if stop then
      if free then
        some { hmap with numEntries := hmap.numEntries + 1, buckets := hmap.buckets.set index bucket }
      else if !replace then some hmap
      else some { hmap with buckets := hmap.buckets.set index bucket }
    else insertItemFrom hmap hash bucket replace rest

/-- Insert a single item into the table. -/
def insertItem (hmap : Headermap) (key : List UInt8) (bucket : Bucket) (replace : Bool := true) :
    Option Headermap :=
  insertItemFrom hmap (hashBytes key) bucket replace (List.range hmap.buckets.length)

/-- Grow the table, and fill in all of the buckets. -/
def grow (hmap : Headermap) : Option Headermap :=
  if isPowerOfTwo hmap.buckets.length then
    hmap.buckets.foldlM
      (fun hmap bucket => do
        let key ← getString hmap.stringTable bucket.keyIndex
        hmap.insertItem key bucket)
      { hmap with buckets := List.replicate (hmap.buckets.length * 2) {}, numEntries := 0 }
  else none

/-- Insert an entry into the table. -/
def insert (hmap : Headermap) (key value : List UInt8) (replace : Bool := true) : Option Headermap := do
  -- grow the table, if necessary
  let hmap ← if 3 * (hmap.numEntries + 1) > 2 * hmap.buckets.length then hmap.grow else some hmap
  let (keyIndex, hmap) ← hmap.getStringIndex key
  let (dirname, basename) := Path.split value
  if dirname = [] then
    let (suffixIndex, hmap) ← hmap.getStringIndex value
    hmap.insertItem key { keyIndex := keyIndex, prefixIndex := 0, suffixIndex := suffixIndex } replace
  else
    let (prefixIndex, hmap) ← hmap.getStringIndex (dirname ++ [Path.pathSeparatorUTF8])
    let (suffixIndex, hmap) ← hmap.getStringIndex basename
    hmap.insertItem key { keyIndex := keyIndex, prefixIndex := prefixIndex, suffixIndex := suffixIndex } replace

/-- The keys and values in the headermap, as its iterator gives them. -/
def pairs (hmap : Headermap) : Option (List (List UInt8 × List UInt8)) :=
  (hmap.buckets.filter (fun bucket => bucket.keyIndex ≠ 0)).mapM (fun bucket => do
    let key ← getString hmap.stringTable bucket.keyIndex
    let front ← getString hmap.stringTable bucket.prefixIndex
    let back ← getString hmap.stringTable bucket.suffixIndex
    some (key, front ++ back))

/-! ## The serialized representation -/

def magicLE : Nat := 0x686d6170

/-- The size of the header. -/
def headerSize : Nat := 24

/-- The stride of the buckets. -/
def bucketStride : Nat := 12

/-- The four bytes of an `Int32`. -/
def int32Bytes (n : Int) : List UInt8 := littleEndian 4 (n % 2 ^ 32).toNat

def Bucket.bytes (bucket : Bucket) : List UInt8 :=
  int32Bytes bucket.keyIndex ++ int32Bytes bucket.prefixIndex ++ int32Bytes bucket.suffixIndex

/-- Return the serialized little-endian headermap representation. -/
def toBytes (hmap : Headermap) : Option (List UInt8) := do
  let stringTableOffset ← uint32 (headerSize + hmap.buckets.length * bucketStride)
  let numEntries ← uint32 hmap.numEntries
  let numBuckets ← uint32 hmap.buckets.length
  let maxValueLength ← uint32 hmap.maxValueLength
  some (littleEndian 4 magicLE ++ littleEndian 2 1 ++ littleEndian 2 0 ++ littleEndian 4 stringTableOffset ++
    littleEndian 4 numEntries ++ littleEndian 4 numBuckets ++ littleEndian 4 maxValueLength ++
    hmap.buckets.flatMap Bucket.bytes ++ hmap.stringTable)

/-- An unsigned field of `width` bytes. -/
def field (bytes : List UInt8) (offset width : Nat) : Nat :=
  ofLittleEndian ((bytes.drop offset).take width)

/-- An `Int32` field. -/
def int32Field (bytes : List UInt8) (offset : Nat) : Int :=
  let n := field bytes offset 4
  if n < 2 ^ 31 then n else (n : Int) - 2 ^ 32

/-- The bucket at an offset. -/
def bucketAt (bytes : List UInt8) (offset : Nat) : Bucket where
  keyIndex := int32Field bytes offset
  prefixIndex := int32Field bytes (offset + 4)
  suffixIndex := int32Field bytes (offset + 8)

/-- Construct the string index map, string by string. -/
def indexStrings (stringTable : List UInt8) :
    Nat → Nat → (List UInt8 → Option Int) → Option (List UInt8 → Option Int)
  | 0, _, _ => none
  | fuel + 1, index, stringIndexMap =>
    if index < stringTable.length then do
      let start ← int32 index
      let string ← getString stringTable start
      indexStrings stringTable fuel (index + (string.length + 1))
        (Function.update stringIndexMap string (some start))
    else some stringIndexMap

/-- Create a headermap from a serialized representation; an error is the text of `invalidHeadermap`. -/
def load (bytes : List UInt8) : Option (Except String Headermap) :=
  if bytes.length < headerSize then some (.error "invalid header")
  else
    let stringTableOffset := field bytes 8 4
    let numEntries := field bytes 12 4
    let numBuckets := field bytes 16 4
    if ¬ (field bytes 0 4 = magicLE ∧ field bytes 4 2 = 1 ∧ field bytes 6 2 = 0) then
      some (.error "invalid header")
    else if ¬ numEntries < numBuckets then some (.error "invalid header (invalid entry count)")
    else if ¬ (0 < numBuckets ∧ headerSize + bucketStride * numBuckets ≤ stringTableOffset) then
      some (.error "invalid header (invalid bucket count)")
    else do
      let count ← uint32 bytes.length
      if ¬ stringTableOffset < count then
        some (.error "invalid header (invalid string table offset)")
      else if bytes.getLast? ≠ some 0 then
        some (.error "invalid header (missing string table terminator)")
      else
        let buckets := (List.range numBuckets).map (fun i => bucketAt bytes (headerSize + bucketStride * i))
        let stringTable := bytes.drop stringTableOffset
        let stringIndexMap ← indexStrings stringTable (stringTable.length + 1) 0 (fun _ => none)
        let stringTableSize ← int32 stringTable.length
        if buckets.any (fun bucket =>
            ¬ (bucket.keyIndex < stringTableSize ∧ bucket.prefixIndex < stringTableSize ∧
              bucket.suffixIndex < stringTableSize)) then
          some (.error "invalid header (invalid bucket index)")
        else
          some (.ok {
            numEntries := numEntries
            buckets := buckets
            stringTable := stringTable
            maxValueLength := field bytes 20 4
            stringIndexMap := stringIndexMap })

end Headermap

end Builra
