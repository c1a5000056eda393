import Builra.Util.HeadermapContents

namespace Builra

open List Nat
open Option hiding any_eq_false map_map

/-!
# `Util.HeadermapRoundTrip` — a headermap is read back from its bytes

The header, the buckets and the string table are written one after the other. What `load` checks holds of a
table that has not grown, as long as its offsets fit into 32 bits.
-/

namespace Headermap

open Codec LinearProbing

/-! ## The iterator -/

/-- The iterator gives what the used buckets represent. -/
theorem pairs_eq {hmap : Headermap} {slots : List (Option (List UInt8 × List UInt8))}
    (hb : List.Forall₂ (Represents hmap.stringTable) hmap.buckets slots) : hmap.pairs = some (entries slots) := by
  unfold pairs
  generalize hmap.buckets = buckets at hb
  induction hb with
  | nil => rfl
  | @cons bucket slot buckets slots hr hrest ih =>
    cases slot with
    | none =>
      have hfree : bucket.keyIndex = 0 := by rw [show bucket = {} from hr]
      rw [filter_cons_of_neg (by simp [hfree]), entries_none]
      exact ih
    | some pair =>
      obtain ⟨key, value⟩ := pair
      obtain ⟨hne, hkey, front, back, hfront, hback, rfl⟩ := hr
      rw [filter_cons_of_pos (by simpa using hne), entries_some, mapM_cons, ih]
      simp [hkey.getString, hfront.getString, hback.getString]

/-! ## Fields -/

variable {before rest stringTable : List UInt8}

theorem field_eq {n width : Nat} (hn : n < 256 ^ width) :
    field (before ++ (littleEndian width n ++ rest)) before.length width = n := by
  unfold field
  rw [drop_left, take_left' (length_littleEndian width n), ofLittleEndian_littleEndian,
    mod_eq_of_lt hn]

theorem int32Field_eq {n : Int} (h₀ : 0 ≤ n) (hn : n < 2 ^ 31) :
    int32Field (before ++ (int32Bytes n ++ rest)) before.length = n := by
  have hmod : n % 2 ^ 32 = n := Int.emod_eq_of_lt h₀ (by omega)
  unfold int32Field int32Bytes
  rw [hmod, field_eq (by omega)]
  dsimp only
  rw [if_pos (by omega)]
  omega

@[simp] theorem length_int32Bytes (n : Int) : (int32Bytes n).length = 4 := length_littleEndian _ _

@[simp] theorem length_bytes (bucket : Bucket) : bucket.bytes.length = bucketStride := by
  simp [Bucket.bytes, bucketStride]

/-- The indices of a bucket are in the string table. -/
def InTable (size : Nat) (bucket : Bucket) : Prop :=
  (0 ≤ bucket.keyIndex ∧ bucket.keyIndex < size) ∧ (0 ≤ bucket.prefixIndex ∧ bucket.prefixIndex < size) ∧
    (0 ≤ bucket.suffixIndex ∧ bucket.suffixIndex < size)

theorem StringAt.bounds {s : List UInt8} {index : Int} (h : StringAt stringTable index s) :
    0 ≤ index ∧ index < stringTable.length := by
  obtain ⟨-, before, after, rfl, rfl⟩ := h
  simp only [length_append, length_cons]
  omega

theorem Represents.inTable (ht : stringTable ≠ []) {bucket : Bucket} {slot : Option (List UInt8 × List UInt8)}
    (h : Represents stringTable bucket slot) :
    InTable stringTable.length bucket := by
  have hpos : 0 < stringTable.length := length_pos_iff.mpr ht
  cases slot with
  | none =>
    rw [show bucket = {} from h]
    simp [InTable, hpos]
  | some pair =>
    obtain ⟨-, hkey, front, back, hfront, hback, -⟩ := h
    exact ⟨hkey.bounds, hfront.bounds, hback.bounds⟩

theorem bucketAt_eq {bucket : Bucket} {size : Nat} (h : InTable size bucket) (hsize : size < 2 ^ 31) :
    bucketAt (before ++ (bucket.bytes ++ rest)) before.length = bucket := by
  obtain ⟨⟨hk₀, hk⟩, ⟨hp₀, hp⟩, ⟨hs₀, hs⟩⟩ := h
  have hkey : int32Field (before ++ (bucket.bytes ++ rest)) before.length = bucket.keyIndex := by
    rw [Bucket.bytes, append_assoc, append_assoc]
    exact int32Field_eq hk₀ (by omega)
  have hfront' : int32Field (before ++ (bucket.bytes ++ rest)) (before.length + 4) = bucket.prefixIndex := by
    have hlen : before.length + 4 = (before ++ int32Bytes bucket.keyIndex).length := by simp
    have hsplit : before ++ (bucket.bytes ++ rest) = (before ++ int32Bytes bucket.keyIndex) ++
        (int32Bytes bucket.prefixIndex ++ (int32Bytes bucket.suffixIndex ++ rest)) := by simp [Bucket.bytes]
    rw [hlen, hsplit]
    exact int32Field_eq hp₀ (by omega)
  have hback' : int32Field (before ++ (bucket.bytes ++ rest)) (before.length + 8) = bucket.suffixIndex := by
    have hlen : before.length + 8 =
        (before ++ int32Bytes bucket.keyIndex ++ int32Bytes bucket.prefixIndex).length := by simp
    have hsplit : before ++ (bucket.bytes ++ rest) =
        (before ++ int32Bytes bucket.keyIndex ++ int32Bytes bucket.prefixIndex) ++
          (int32Bytes bucket.suffixIndex ++ rest) := by simp [Bucket.bytes]
    rw [hlen, hsplit]
    exact int32Field_eq hs₀ (by omega)
  unfold bucketAt
  rw [hkey, hfront', hback']

/-- The buckets are read back one by one. -/
theorem map_bucketAt {size : Nat} (hsize : size < 2 ^ 31) (buckets : List Bucket) :
    ∀ (before rest : List UInt8), (∀ bucket ∈ buckets, InTable size bucket) →
      (List.range buckets.length).map (fun i =>
        bucketAt (before ++ (buckets.flatMap Bucket.bytes ++ rest)) (before.length + bucketStride * i)) = buckets := by
  induction buckets with
  | nil => exact fun _ _ _ => rfl
  | cons bucket buckets ih =>
    intro before rest h
    rw [length_cons, range_succ_eq_map, map_cons, map_map, flatMap_cons]
    congr 1
    · rw [Nat.mul_zero, Nat.add_zero, append_assoc]
      exact bucketAt_eq (h bucket mem_cons_self) hsize
    · have hrest := ih (before ++ bucket.bytes) rest (fun b hb => h b (mem_cons_of_mem _ hb))
      rw [length_append, length_bytes] at hrest
      refine Eq.trans (map_congr_left (fun i _ => ?_)) hrest
      have hindex : before.length + bucketStride * (i + 1) = before.length + bucketStride + bucketStride * i := by
        rw [Nat.mul_add, Nat.mul_one]
        omega
      simp only [Function.comp_apply, hindex, append_assoc]

/-! ## The string index map -/

/-- The strings are found one after the other. -/
theorem indexStrings_isSome (hlen : stringTable.length < 2 ^ 31) (strings : List (List UInt8)) :
    ∀ (before : List UInt8) (fuel : Nat) (map : List UInt8 → Option Int),
      stringTable = before ++ strings.flatMap (fun s => s ++ [0]) → (∀ s ∈ strings, (0 : UInt8) ∉ s) →
      strings.length < fuel → (indexStrings stringTable fuel before.length map).isSome = true := by
  induction strings with
  | nil =>
    intro before fuel map htable _ hfuel
    obtain ⟨fuel, rfl⟩ : ∃ n, fuel = n + 1 := ⟨fuel - 1, by simp at hfuel; omega⟩
    have hend : ¬ before.length < stringTable.length := by
      rw [htable]
      simp
    rw [indexStrings, if_neg hend]
    rfl
  | cons s strings ih =>
    intro before fuel map htable hnul hfuel
    obtain ⟨fuel, rfl⟩ : ∃ n, fuel = n + 1 := ⟨fuel - 1, by simp at hfuel; omega⟩
    rw [flatMap_cons] at htable
    have hat : StringAt stringTable before.length s :=
      ⟨hnul s mem_cons_self, before, strings.flatMap (fun s => s ++ [0]), by rw [htable]; simp, rfl⟩
    have hlt : before.length < stringTable.length := by
      have hbounds := hat.bounds.2
      omega
    have hint : int32 before.length = some (before.length : Int) := if_pos (hlt.trans hlen)
    have hrest := ih (before ++ (s ++ [0])) fuel (Function.update map s (some (before.length : Int)))
      (by rw [htable]; simp) (fun s' hs' => hnul s' (mem_cons_of_mem _ hs'))
      (by simpa using lt_of_succ_lt_succ hfuel)
    rw [indexStrings, if_pos hlt, hint]
    simp only [bind_eq_bind, bind_some, hat.getString]
    rwa [length_append, length_append, length_singleton] at hrest

variable (names : List (List UInt8))

theorem tableOf_eq_flatMap :
    tableOf names = ([] :: names).flatMap (fun s => s ++ [0]) := rfl

theorem length_le_length_tableOf : ([] :: names).length ≤ (tableOf names).length := by
  rw [tableOf_eq_flatMap]
  generalize [] :: names = strings
  induction strings with
  | nil => exact le_refl _
  | cons s strings ih =>
    rw [flatMap_cons, length_cons, length_append, length_append, length_singleton]
    omega

/-! ## The whole file -/

/-- The header of a file. -/
def header (stringTableOffset numEntries numBuckets maxValueLength : Nat) : List UInt8 :=
  littleEndian 4 magicLE ++ littleEndian 2 1 ++ littleEndian 2 0 ++ littleEndian 4 stringTableOffset ++
    littleEndian 4 numEntries ++ littleEndian 4 numBuckets ++ littleEndian 4 maxValueLength

theorem length_header (stringTableOffset numEntries numBuckets maxValueLength : Nat) :
    (header stringTableOffset numEntries numBuckets maxValueLength).length = headerSize := by
  simp [header, headerSize]

theorem field_magic (a b c d : Nat) (rest : List UInt8) : field (header a b c d ++ rest) 0 4 = magicLE :=
  ofLittleEndian_littleEndian 4 magicLE

theorem field_version (a b c d : Nat) (rest : List UInt8) : field (header a b c d ++ rest) 4 2 = 1 :=
  ofLittleEndian_littleEndian 2 1

theorem field_reserved (a b c d : Nat) (rest : List UInt8) : field (header a b c d ++ rest) 6 2 = 0 :=
  ofLittleEndian_littleEndian 2 0

theorem field_offset {a : Nat} (b c d : Nat) (rest : List UInt8) (ha : a < 2 ^ 32) :
    field (header a b c d ++ rest) 8 4 = a :=
  (ofLittleEndian_littleEndian 4 a).trans (mod_eq_of_lt ha)

theorem field_numEntries (a : Nat) {b : Nat} (c d : Nat) (rest : List UInt8) (hb : b < 2 ^ 32) :
    field (header a b c d ++ rest) 12 4 = b :=
  (ofLittleEndian_littleEndian 4 b).trans (mod_eq_of_lt hb)

theorem field_numBuckets (a b : Nat) {c : Nat} (d : Nat) (rest : List UInt8) (hc : c < 2 ^ 32) :
    field (header a b c d ++ rest) 16 4 = c :=
  (ofLittleEndian_littleEndian 4 c).trans (mod_eq_of_lt hc)

variable {capacity : Nat} {calls : List Call} {hmap hmap' : Headermap} {bytes : List UInt8}

theorem toBytes_eq (h : hmap.toBytes = some bytes) :
    headerSize + hmap.buckets.length * bucketStride < 2 ^ 32 ∧ hmap.numEntries < 2 ^ 32 ∧
      hmap.buckets.length < 2 ^ 32 ∧ hmap.maxValueLength < 2 ^ 32 ∧
      bytes = header (headerSize + hmap.buckets.length * bucketStride) hmap.numEntries hmap.buckets.length
        hmap.maxValueLength ++ (hmap.buckets.flatMap Bucket.bytes ++ hmap.stringTable) := by
  simp only [toBytes, uint32, bind_eq_bind, bind_eq_some_iff, ite_none_right_eq_some,
    Option.some.injEq] at h
  obtain ⟨a, ⟨ha, rfl⟩, b, ⟨hb, rfl⟩, c, ⟨hc, rfl⟩, d, ⟨hd, rfl⟩, rfl⟩ := h
  exact ⟨ha, hb, hc, hd, by simp [header]⟩

theorem length_flatMap_bytes (buckets : List Bucket) :
    (buckets.flatMap Bucket.bytes).length = buckets.length * bucketStride := by
  induction buckets with
  | nil => simp
  | cons bucket buckets ih =>
    rw [flatMap_cons, length_append, ih, length_bytes, length_cons, Nat.add_mul]
    omega

/-- A check that threw would not have given a headermap. -/
theorem of_guard {p : Prop} [Decidable p] {message : String} {rest : Option (Except String Headermap)}
    (h : (if p then some (.error message) else rest) = some (.ok hmap')) : ¬ p ∧ rest = some (.ok hmap') := by
  split_ifs at h with hp
  · exact absurd (Option.some.inj h) (by simp)
  · exact ⟨hp, h⟩

/-- What `load` converts to 32 bits has to fit, and its checks hold. -/
theorem load_ok (h : load bytes = some (.ok hmap')) :
    bytes.length < 2 ^ 32 ∧ (bytes.drop (field bytes 8 4)).length < 2 ^ 31 ∧
      field bytes 12 4 < field bytes 16 4 := by
  obtain ⟨-, h⟩ := of_guard h
  obtain ⟨-, h⟩ := of_guard h
  obtain ⟨hnum, h⟩ := of_guard h
  obtain ⟨-, h⟩ := of_guard h
  obtain ⟨count, hcount, h⟩ := bind_eq_some_iff.mp h
  obtain ⟨-, h⟩ := of_guard h
  obtain ⟨-, h⟩ := of_guard h
  obtain ⟨stringIndexMap, -, h⟩ := bind_eq_some_iff.mp h
  obtain ⟨size, hsize, -⟩ := bind_eq_some_iff.mp h
  exact ⟨(ite_none_right_eq_some.mp hcount).1, (ite_none_right_eq_some.mp hsize).1, not_not.mp hnum⟩

/-- A file that passes the checks is read. -/
theorem load_eq {bytes : List UInt8} {numEntries numBuckets stringTableOffset maxValueLength : Nat}
    {buckets : List Bucket} {stringIndexMap : List UInt8 → Option Int} (hheader : headerSize ≤ bytes.length)
    (hmagic : field bytes 0 4 = magicLE) (hversion : field bytes 4 2 = 1) (hreserved : field bytes 6 2 = 0)
    (hoffset : field bytes 8 4 = stringTableOffset) (hnum : field bytes 12 4 = numEntries)
    (hcount : field bytes 16 4 = numBuckets) (hmax : field bytes 20 4 = maxValueLength)
    (hlt : numEntries < numBuckets) (hend : headerSize + bucketStride * numBuckets ≤ stringTableOffset)
    (hlen : bytes.length < 2 ^ 32) (hinside : stringTableOffset < bytes.length) (hlast : bytes.getLast? = some 0)
    (hbuckets : (List.range numBuckets).map (fun i => bucketAt bytes (headerSize + bucketStride * i)) = buckets)
    (htable : bytes.drop stringTableOffset = stringTable) (hsize : stringTable.length < 2 ^ 31)
    (hindex : indexStrings stringTable (stringTable.length + 1) 0 (fun _ => none) = some stringIndexMap)
    (hin : ∀ bucket ∈ buckets, InTable stringTable.length bucket) :
    load bytes = some (.ok {
      numEntries := numEntries, buckets := buckets, stringTable := stringTable,
      maxValueLength := maxValueLength, stringIndexMap := stringIndexMap }) := by
  have hall : buckets.any (fun bucket =>
      ¬ (bucket.keyIndex < (stringTable.length : Int) ∧ bucket.prefixIndex < (stringTable.length : Int) ∧
        bucket.suffixIndex < (stringTable.length : Int))) = false := by
    rw [any_eq_false]
    intro bucket hbucket
    obtain ⟨⟨-, hk⟩, ⟨-, hp⟩, ⟨-, hs⟩⟩ := hin bucket hbucket
    simp [hk, hp, hs]
  unfold load
  rw [if_neg (not_lt.mpr hheader)]
  dsimp only
  rw [hmagic, hversion, hreserved, hoffset, hnum, hcount, hmax, if_neg (by simp), if_neg (not_not.mpr hlt),
    if_neg (not_not.mpr ⟨zero_lt_of_lt hlt, hend⟩), uint32, if_pos hlen]
  simp only [bind_eq_bind, bind_some]
  rw [if_neg (not_not.mpr hinside), if_neg (not_not.mpr hlast), htable, hindex, int32, if_pos hsize, hbuckets]
  simp only [bind_some]
  rw [hall]
  rfl

theorem field_maxValueLength (a b c : Nat) {d : Nat} (rest : List UInt8) (hd : d < 2 ^ 32) :
    field (header a b c d ++ rest) 20 4 = d :=
  (ofLittleEndian_littleEndian 4 d).trans (mod_eq_of_lt hd)

section

variable (h : hmap.toBytes = some bytes)
include h

theorem length_toBytes :
    bytes.length = headerSize + hmap.buckets.length * bucketStride + hmap.stringTable.length := by
  obtain ⟨-, -, -, -, rfl⟩ := toBytes_eq h
  rw [length_append, length_append, length_header, length_flatMap_bytes, Nat.add_assoc]

theorem drop_toBytes :
    field bytes 8 4 = headerSize + hmap.buckets.length * bucketStride ∧
      bytes.drop (headerSize + hmap.buckets.length * bucketStride) = hmap.stringTable := by
  obtain ⟨hoffset, -, -, -, rfl⟩ := toBytes_eq h
  refine ⟨field_offset _ _ _ _ hoffset, ?_⟩
  rw [← append_assoc]
  apply drop_left'
  rw [length_append, length_header, length_flatMap_bytes]

/-- **A table is read back** from its bytes. -/
theorem load_toBytes {names : List (List UInt8)} (hs : Strings hmap names)
    (hin : ∀ bucket ∈ hmap.buckets, InTable hmap.stringTable.length bucket)
    (hlt : hmap.numEntries < hmap.buckets.length) (hlen : bytes.length < 2 ^ 32)
    (hsize : hmap.stringTable.length < 2 ^ 31) :
    ∃ hmap', load bytes = some (.ok hmap') ∧ hmap'.buckets = hmap.buckets ∧
      hmap'.stringTable = hmap.stringTable := by
  have hlength := length_toBytes h
  obtain ⟨hfield, hdrop⟩ := drop_toBytes h
  obtain ⟨hoffset, hnum, hcount, hmax, hbytes⟩ := toBytes_eq h
  have htable : hmap.stringTable = ([] :: names).flatMap (fun s => s ++ [0]) :=
    hs.table.trans (tableOf_eq_flatMap names)
  have hpos : 0 < hmap.stringTable.length := by
    rw [hs.table]
    exact succ_pos _
  have hindexed : (indexStrings hmap.stringTable (hmap.stringTable.length + 1) 0 (fun _ => none)).isSome = true := by
    have hfuel : ([] :: names).length < hmap.stringTable.length + 1 := by
      rw [hs.table]
      exact lt_succ_of_le (length_le_length_tableOf names)
    apply indexStrings_isSome hsize ([] :: names) [] _ _ htable _ hfuel
    intro s hmem
    rcases mem_cons.mp hmem with rfl | hmem
    · exact not_mem_nil
    · exact hs.nulFree s hmem
  obtain ⟨stringIndexMap, hindex⟩ := isSome_iff_exists.mp hindexed
  -- the string table ends with the NUL byte of its last string
  have hlast : bytes.getLast? = some 0 := by
    have hend : hmap.stringTable.getLast? = some 0 := by
      rw [hs.table]
      rcases eq_nil_or_concat names with rfl | ⟨before, s, rfl⟩
      · rfl
      · rw [concat_eq_append, tableOf_append]
        exact List.getLast?_concat
    rw [hbytes, ← append_assoc, List.getLast?_append, hend]
    rfl
  have hread : (List.range hmap.buckets.length).map (fun i => bucketAt bytes (headerSize + bucketStride * i)) =
      hmap.buckets := by
    have hmap := map_bucketAt hsize hmap.buckets (header (headerSize + hmap.buckets.length * bucketStride)
      hmap.numEntries hmap.buckets.length hmap.maxValueLength) hmap.stringTable hin
    rwa [length_header, ← hbytes] at hmap
  have hfield₀ : field bytes 0 4 = magicLE := hbytes ▸ field_magic _ _ _ _ _
  have hfield₄ : field bytes 4 2 = 1 := hbytes ▸ field_version _ _ _ _ _
  have hfield₆ : field bytes 6 2 = 0 := hbytes ▸ field_reserved _ _ _ _ _
  have hfield₁₂ : field bytes 12 4 = hmap.numEntries := hbytes ▸ field_numEntries _ _ _ _ hnum
  have hfield₁₆ : field bytes 16 4 = hmap.buckets.length := hbytes ▸ field_numBuckets _ _ _ _ hcount
  have hfield₂₀ : field bytes 20 4 = hmap.maxValueLength := hbytes ▸ field_maxValueLength _ _ _ _ hmax
  have hend : headerSize + bucketStride * hmap.buckets.length ≤
      headerSize + hmap.buckets.length * bucketStride := by rw [Nat.mul_comm]
  exact ⟨_, load_eq (by omega) hfield₀ hfield₄ hfield₆ hfield hfield₁₂ hfield₁₆ hfield₂₀ hlt hend hlen (by omega)
    hlast hread hdrop hsize hindex hin, rfl, rfl⟩

/-- The 32-bit offsets decide whether the bytes are read. -/
theorem load_toBytes_iff {names : List (List UInt8)} (hs : Strings hmap names)
    (hin : ∀ bucket ∈ hmap.buckets, InTable hmap.stringTable.length bucket)
    (hlt : hmap.numEntries < hmap.buckets.length) :
    (∃ hmap', load bytes = some (.ok hmap')) ↔
      bytes.length < 2 ^ 32 ∧ hmap.stringTable.length < 2 ^ 31 := by
  constructor
  · rintro ⟨hmap', hload⟩
    obtain ⟨hfield, hdrop⟩ := drop_toBytes h
    obtain ⟨hlen, hsize, -⟩ := load_ok hload
    rw [hfield, hdrop] at hsize
    exact ⟨hlen, hsize⟩
  · rintro ⟨hlen, hsize⟩
    obtain ⟨hmap', hload, -⟩ := load_toBytes h hs hin hlt hlen hsize
    exact ⟨hmap', hload⟩

end

end Headermap

end Builra
