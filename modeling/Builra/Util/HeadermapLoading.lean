import Builra.Util.HeadermapFresh
import Mathlib.Algebra.Order.BigOperators.Group.List

namespace Builra

open List

/-!
# `Util.HeadermapLoading` — headermaps that were read from a file

`load` checks the sizes and the upper bounds of the indices. What an insert relies on besides is not checked: that the
indices of used buckets are not negative, that the number of buckets is a power of two, and that the number of entries
leaves a bucket free.
-/

namespace Headermap

/-! ## What is checked -/

variable (bytes : List UInt8)

def loadedBuckets : List Bucket :=
  (List.range (field bytes 16 4)).map (fun i => bucketAt bytes (headerSize + bucketStride * i))

def loadedTable : List UInt8 := bytes.drop (field bytes 8 4)

/-- The checks before the size of the file is converted to 32 bits. -/
structure HeaderValid (bytes : List UInt8) : Prop where
  size : headerSize ≤ bytes.length
  code : field bytes 0 4 = magicLE ∧ field bytes 4 2 = 1 ∧ field bytes 6 2 = 0
  numEntries : field bytes 12 4 < field bytes 16 4
  numBuckets : 0 < field bytes 16 4 ∧ headerSize + bucketStride * field bytes 16 4 ≤ field bytes 8 4

structure TableValid (bytes : List UInt8) : Prop where
  offset : field bytes 8 4 < bytes.length
  terminated : bytes.getLast? = some 0

/-- The check of the buckets. -/
def IndicesBelow : Prop :=
  ∀ bucket ∈ loadedBuckets bytes, bucket.keyIndex < (loadedTable bytes).length ∧
    bucket.prefixIndex < (loadedTable bytes).length ∧ bucket.suffixIndex < (loadedTable bytes).length

/-- The sizes fit into 32 bits wherever they are converted. -/
structure Sized (bytes : List UInt8) : Prop where
  count : HeaderValid bytes → bytes.length < 2 ^ 32
  stringTable : HeaderValid bytes → TableValid bytes → (loadedTable bytes).length < 2 ^ 31

/-- What `load` gives. -/
inductive Loads (bytes : List UInt8) : Option (Except String Headermap) → Prop where
  | refused (message : String) (hsized : Sized bytes)
      (hinvalid : ¬ (HeaderValid bytes ∧ TableValid bytes ∧ IndicesBelow bytes)) : Loads bytes (some (.error message))
  | trapped (hsized : ¬ Sized bytes) : Loads bytes none
  | loaded (hsized : Sized bytes) (hheader : HeaderValid bytes) (htable : TableValid bytes)
      (hbelow : IndicesBelow bytes) (stringIndexMap : List UInt8 → Option Int)
      (hindex : ∀ s index, stringIndexMap s = some index → StringAt (loadedTable bytes) index s) :
      Loads bytes (some (.ok {
        numEntries := field bytes 12 4
        buckets := loadedBuckets bytes
        stringTable := loadedTable bytes
        maxValueLength := field bytes 20 4
        stringIndexMap := stringIndexMap }))

variable {bytes : List UInt8}

theorem getLast?_loadedTable (h : TableValid bytes) : (loadedTable bytes).getLast? = some 0 := by
  rw [loadedTable, List.getLast?_drop, if_neg (Nat.not_le.mpr h.offset)]
  exact h.terminated

/-- Every string that is indexed is in the table. -/
theorem indexStrings_stringAt {stringTable : List UInt8} (hterminated : stringTable.getLast? = some 0)
    (hlength : stringTable.length < 2 ^ 31) (fuel : Nat) :
    ∀ (index : Nat) (stringIndexMap : List UInt8 → Option Int), index ≤ stringTable.length →
      stringTable.length < index + fuel →
      (∀ s i, stringIndexMap s = some i → StringAt stringTable i s) →
      ∃ stringIndexMap', indexStrings stringTable fuel index stringIndexMap = some stringIndexMap' ∧
        ∀ s i, stringIndexMap' s = some i → StringAt stringTable i s := by
  induction fuel with
  | zero =>
    intro index stringIndexMap hle hfuel _
    omega
  | succ fuel ih =>
    intro index stringIndexMap hle hfuel hmap
    rw [indexStrings]
    by_cases hlt : index < stringTable.length
    · have hint : int32 index = some (index : Int) := if_pos (hlt.trans hlength)
      obtain ⟨s, hs⟩ := exists_stringAt hterminated ⟨Int.natCast_nonneg index, by exact_mod_cast hlt⟩
      have hend : index + (s.length + 1) ≤ stringTable.length := by
        obtain ⟨-, before, after, rfl, hbefore⟩ := hs
        rw [← Int.natCast_inj.mp hbefore]
        simp only [length_append, length_cons]
        omega
      rw [if_pos hlt, hint]
      simp only [Option.bind_eq_bind, Option.bind_some, hs.getString]
      apply ih _ _ hend (by omega)
      intro t i ht
      by_cases hts : t = s
      · rw [hts, Function.update_self] at ht
        rw [hts, ← Option.some.inj ht]
        exact hs
      · rw [Function.update_of_ne hts] at ht
        exact hmap t i ht
    · rw [if_neg hlt]
      exact ⟨stringIndexMap, rfl, hmap⟩

/-- The checks of `load`, one after the other. -/
theorem loads (bytes : List UInt8) : Loads bytes (load bytes) := by
  unfold load
  dsimp only
  have hrefused : ∀ message, ¬ HeaderValid bytes → Loads bytes (some (.error message)) :=
    fun message hheader =>
      .refused message ⟨fun h => absurd h hheader, fun h => absurd h hheader⟩ (fun h => hheader h.1)
  by_cases hsize : headerSize ≤ bytes.length
  case neg =>
    rw [if_pos (Nat.not_le.mp hsize)]
    exact hrefused _ (fun h => hsize h.size)
  rw [if_neg (Nat.not_lt.mpr hsize)]
  by_cases hcode : field bytes 0 4 = magicLE ∧ field bytes 4 2 = 1 ∧ field bytes 6 2 = 0
  case neg =>
    rw [if_pos hcode]
    exact hrefused _ (fun h => hcode h.code)
  rw [if_neg (not_not.mpr hcode)]
  by_cases hentries : field bytes 12 4 < field bytes 16 4
  case neg =>
    rw [if_pos hentries]
    exact hrefused _ (fun h => hentries h.numEntries)
  rw [if_neg (not_not.mpr hentries)]
  by_cases hbuckets : 0 < field bytes 16 4 ∧ headerSize + bucketStride * field bytes 16 4 ≤ field bytes 8 4
  case neg =>
    rw [if_pos hbuckets]
    exact hrefused _ (fun h => hbuckets h.numBuckets)
  rw [if_neg (not_not.mpr hbuckets)]
  have hheader : HeaderValid bytes := ⟨hsize, hcode, hentries, hbuckets⟩
  by_cases hcount : bytes.length < 2 ^ 32
  case neg =>
    have huint : uint32 bytes.length = none := if_neg hcount
    rw [huint]
    exact .trapped (fun h => hcount (h.count hheader))
  have huint : uint32 bytes.length = some bytes.length := if_pos hcount
  rw [huint]
  simp only [Option.bind_eq_bind, Option.bind_some]
  have hrefused : ∀ message, ¬ TableValid bytes → Loads bytes (some (.error message)) :=
    fun message htable => .refused message ⟨fun _ => hcount, fun _ h => absurd h htable⟩ (fun h => htable h.2.1)
  by_cases hoffset : field bytes 8 4 < bytes.length
  case neg =>
    rw [if_pos hoffset]
    exact hrefused _ (fun h => hoffset h.offset)
  rw [if_neg (not_not.mpr hoffset)]
  by_cases hlast : bytes.getLast? = some 0
  case neg =>
    rw [if_pos hlast]
    exact hrefused _ (fun h => hlast h.terminated)
  rw [if_neg (not_not.mpr hlast)]
  have htable : TableValid bytes := ⟨hoffset, hlast⟩
  show Loads bytes ((indexStrings (loadedTable bytes) ((loadedTable bytes).length + 1) 0 (fun _ => none)).bind _)
  by_cases hlength : (loadedTable bytes).length < 2 ^ 31
  case neg =>
    -- the size of the string table does not fit, whatever the index map is
    have hint : int32 (loadedTable bytes).length = none := if_neg hlength
    have htrapped : Loads bytes none := .trapped (fun h => hlength (h.stringTable hheader htable))
    cases indexStrings (loadedTable bytes) ((loadedTable bytes).length + 1) 0 (fun _ => none) with
    | none => exact htrapped
    | some stringIndexMap =>
      show Loads bytes ((int32 (loadedTable bytes).length).bind _)
      rw [hint]
      exact htrapped
  have hsized : Sized bytes := ⟨fun _ => hcount, fun _ _ => hlength⟩
  obtain ⟨stringIndexMap, hmap, hindex⟩ := indexStrings_stringAt (getLast?_loadedTable htable) hlength
    ((loadedTable bytes).length + 1) 0 (fun _ => none) (Nat.zero_le _) (by omega) (by simp)
  have hint : int32 (loadedTable bytes).length = some ((loadedTable bytes).length : Int) := if_pos hlength
  rw [hmap]
  show Loads bytes ((int32 (loadedTable bytes).length).bind _)
  rw [hint]
  simp only [Option.bind_some]
  by_cases hbelow : IndicesBelow bytes
  · rw [if_neg]
    · exact .loaded hsized hheader htable hbelow stringIndexMap hindex
    · rw [Bool.not_eq_true, any_eq_false]
      intro bucket hbucket
      simpa using hbelow bucket hbucket
  · rw [if_pos]
    · exact .refused _ hsized (fun h => hbelow h.2.2)
    · rw [any_eq_true]
      unfold IndicesBelow at hbelow
      push Not at hbelow
      obtain ⟨bucket, hbucket, hindex⟩ := hbelow
      refine ⟨bucket, hbucket, ?_⟩
      rw [decide_eq_true_eq]
      rintro ⟨hkey, hfront, hback⟩
      exact absurd hback (Int.not_lt.mpr (hindex hkey hfront))

/-! ## What is not checked -/

/-- What the file promises for its buckets. -/
structure WellFormed (bytes : List UInt8) : Prop where
  numBuckets : isPowerOfTwo (field bytes 16 4) = true
  nonneg : ∀ bucket ∈ loadedBuckets bytes, bucket.keyIndex ≠ 0 →
    0 ≤ bucket.keyIndex ∧ 0 ≤ bucket.prefixIndex ∧ 0 ≤ bucket.suffixIndex
  slack : Slack (field bytes 12 4) (loadedBuckets bytes)

/-- The sizes fit, and a file that is accepted is well formed. -/
structure Sound (bytes : List UInt8) : Prop where
  sized : Sized bytes
  wellFormed : HeaderValid bytes → TableValid bytes → IndicesBelow bytes → WellFormed bytes

/-- The file is refused, or read as a headermap on which any sequence of inserts that fits, and iteration after it,
reach no failed precondition. -/
def Safe (bytes : List UInt8) : Prop :=
  ∃ r, load bytes = some r ∧ ∀ hmap, r = .ok hmap → ∀ calls, hmap.Fits calls →
    ∃ hmap', hmap.insertAll calls = some hmap' ∧ hmap'.pairs.isSome = true

theorem safe_of_sound (h : Sound bytes) : Safe bytes := by
  unfold Safe
  have hloads := loads bytes
  generalize load bytes = result at hloads
  cases hloads with
  | refused message =>
    refine ⟨_, rfl, fun hmap heq => ?_⟩
    cases heq
  | trapped hsized => exact absurd h.sized hsized
  | loaded hsized hheader htable hbelow stringIndexMap hindex =>
    refine ⟨_, rfl, fun hmap heq calls hfits => ?_⟩
    cases heq
    obtain ⟨hsize, hnonneg, hslack⟩ := h.wellFormed hheader htable hbelow
    have hterminated := getLast?_loadedTable htable
    have hpos : 0 < (loadedTable bytes).length := by
      rw [length_pos_iff]
      rintro hnil
      rw [hnil] at hterminated
      exact absurd hterminated (by simp)
    have hintact : Intact {
        numEntries := field bytes 12 4
        buckets := loadedBuckets bytes
        stringTable := loadedTable bytes
        maxValueLength := field bytes 20 4
        stringIndexMap := stringIndexMap } := by
      refine ⟨?_, hterminated, fun bucket hbucket => ?_, fun s index hs => (hindex s index hs).bounds⟩
      · dsimp only
        rwa [loadedBuckets, length_map, length_range]
      · obtain ⟨hkey, hfront, hback⟩ := hbelow bucket hbucket
        by_cases hzero : bucket.keyIndex = 0
        · rw [← Int.natCast_pos, ← hzero] at hpos
          exact ⟨⟨hzero.ge, hpos⟩, fun hused => absurd hzero hused⟩
        · obtain ⟨hkey', hfront', hback'⟩ := hnonneg bucket hbucket hzero
          exact ⟨⟨hkey', hkey⟩, fun _ => ⟨⟨hfront', hfront⟩, ⟨hback', hback⟩⟩⟩
    obtain ⟨hmap', hinserts, hintact'⟩ := hintact.insertAll hslack hfits
    exact ⟨hmap', hinserts, hintact'.pairs_isSome⟩

/-- There is room in the string table for a key for each bucket, each longer than the table. -/
def Roomy (bytes : List UInt8) : Prop :=
  (loadedTable bytes).length < 2 ^ 31 →
    (loadedTable bytes).length + (field bytes 16 4 + 1) * ((loadedTable bytes).length + field bytes 16 4 + 3) ≤ 2 ^ 31

theorem weight_freshCall (n : Nat) : (freshCall n).weight = n + 3 := by
  have hparts : parts (freshCall n).value = ([], []) := by
    show parts [] = ([], [])
    decide
  have hlength : (freshCall n).key.length = n := length_replicate
  rw [Call.weight_eq, hparts, hlength]
  rfl

theorem sum_weight_freshCall_le (start : Nat) {k n : Nat} (hk : k ≤ n) :
    (((List.range' start (k + 1)).map freshCall).map Call.weight).sum ≤ (n + 1) * (start + n + 3) := by
  have hall : ∀ w ∈ ((List.range' start (k + 1)).map freshCall).map Call.weight, w ≤ start + n + 3 := by
    intro w hw
    rw [map_map] at hw
    obtain ⟨m, hm, rfl⟩ := mem_map.mp hw
    rw [mem_range'_1] at hm
    show (freshCall m).weight ≤ _
    rw [weight_freshCall]
    omega
  have hsum := sum_le_card_nsmul _ _ hall
  rw [length_map, length_map, length_range'] at hsum
  exact hsum.trans (Nat.mul_le_mul_right _ (by omega))

theorem sound_of_safe (hroomy : Roomy bytes) (h : Safe bytes) : Sound bytes := by
  obtain ⟨r, hr, hall⟩ := h
  have hloads := loads bytes
  rw [hr] at hloads
  cases hloads with
  | refused message hsized hinvalid =>
    exact ⟨hsized, fun hheader htable hbelow => absurd ⟨hheader, htable, hbelow⟩ hinvalid⟩
  | loaded hsized hheader htable hbelow stringIndexMap hindex =>
    refine ⟨hsized, fun _ _ _ => ?_⟩
    replace hall := hall _ rfl
    generalize hhmap : (Headermap.mk (field bytes 12 4) (loadedBuckets bytes) (loadedTable bytes) (field bytes 20 4)
      stringIndexMap) = hmap at hall
    have hbuckets : hmap.buckets = loadedBuckets bytes := by rw [← hhmap]
    have hstrings : hmap.stringTable = loadedTable bytes := by rw [← hhmap]
    have hentries : hmap.numEntries = field bytes 12 4 := by rw [← hhmap]
    have hcount : (loadedBuckets bytes).length = field bytes 16 4 := by
      rw [loadedBuckets, length_map, length_range]
    have hlength := hsized.stringTable hheader htable
    -- iterating before any insert
    have hnonneg : ∀ bucket ∈ loadedBuckets bytes, bucket.keyIndex ≠ 0 →
        0 ≤ bucket.keyIndex ∧ 0 ≤ bucket.prefixIndex ∧ 0 ≤ bucket.suffixIndex := by
      have hfits : hmap.Fits [] := by
        unfold Fits
        rw [hstrings, map_nil, sum_nil]
        omega
      obtain ⟨hmap', hnone, hpairs⟩ := hall [] hfits
      cases hnone
      rw [← hbuckets]
      exact nonneg_of_pairs hpairs
    have hterminated := getLast?_loadedTable htable
    have hfresh : Below hmap (loadedTable bytes).length := by
      rw [← hhmap]
      refine ⟨?_, fun bucket hbucket hused => ?_, fun s index hs => (hindex s index hs).length_lt⟩
      · dsimp only
        rw [length_pos_iff]
        rintro hnil
        rw [hnil] at hterminated
        exact absurd hterminated (by simp)
      · obtain ⟨s, hs⟩ := exists_stringAt hterminated
          ⟨(hnonneg bucket hbucket hused).1, (hbelow bucket hbucket).1⟩
        exact ⟨s, hs, hs.length_lt⟩
    have hinserts : ∀ k, k ≤ hmap.buckets.length →
        ∃ hmap', hmap.insertAll ((List.range' (loadedTable bytes).length (k + 1)).map freshCall) = some hmap' := by
      intro k hk
      rw [hbuckets, hcount] at hk
      have hfits : hmap.Fits ((List.range' (loadedTable bytes).length (k + 1)).map freshCall) := by
        unfold Fits
        rw [hstrings]
        exact (Nat.add_le_add_left (sum_weight_freshCall_le _ hk) _).trans (hroomy hlength)
      obtain ⟨hmap', hinserts, -⟩ := hall _ hfits
      exact ⟨hmap', hinserts⟩
    obtain ⟨hpower, hslack⟩ := hfresh.slack hinserts
    rw [hbuckets, hcount] at hpower
    rw [hbuckets, hentries] at hslack
    exact ⟨hpower, hnonneg, hslack⟩

/-- **Loading is safe** exactly if the sizes fit into 32 bits and an accepted file has a power of two of buckets, no
negative index in a used bucket, and a number of entries that leaves buckets free; for the converse, the string table
has to have room for the inserts that come to the defect. -/
theorem safe_iff (bytes : List UInt8) : (Sound bytes → Safe bytes) ∧ (Roomy bytes → (Safe bytes ↔ Sound bytes)) :=
  ⟨safe_of_sound, fun hroomy => ⟨sound_of_safe hroomy, safe_of_sound⟩⟩

/-- One bucket whose key has the index -1, in a file of 37 bytes. -/
theorem not_safe : ¬ ∀ bytes, Safe bytes := by
  intro h
  let bytes : List UInt8 := header 36 0 1 0 ++ Bucket.bytes { keyIndex := -1 } ++ [0]
  have hheader : HeaderValid bytes := ⟨by decide, ⟨by decide, by decide, by decide⟩, by decide, ⟨by decide, by decide⟩⟩
  have htable : TableValid bytes := ⟨by decide, by decide⟩
  have hbuckets : loadedBuckets bytes = [{ keyIndex := -1 }] := by decide
  have hlength : (loadedTable bytes).length = 1 := by decide
  have hbelow : IndicesBelow bytes := by
    unfold IndicesBelow
    rw [hbuckets, hlength]
    decide
  have hroomy : Roomy bytes := by
    have hcount : field bytes 16 4 = 1 := by decide
    unfold Roomy
    rw [hlength, hcount]
    decide
  have hnonneg := ((sound_of_safe hroomy (h bytes)).wellFormed hheader htable hbelow).nonneg
  rw [hbuckets] at hnonneg
  exact absurd (hnonneg _ (mem_singleton_self _) (by decide)).1 (by decide)

end Headermap

end Builra
