import Builra.Util.HeadermapInserts

namespace Builra

open List Option

/-!
# `Util.HeadermapSafety` — inserts that stay inside the string table and the buckets

What a headermap has to satisfy so that any sequence of inserts finds its indices in the string table, a power of two
of buckets, and a free bucket wherever it needs one. No insert gives this up, also not one that grows the table.
-/

namespace Headermap

open LinearProbing

/-- The strings of a call take up this much of the string table. -/
def Call.weight (call : Call) : Nat := ((stringsOf call).map (fun s => s.length + 1)).sum

/-- The indices of the strings fit into 32 bits, with the strings of these calls added. -/
def Fits (hmap : Headermap) (calls : List Call) : Prop :=
  hmap.stringTable.length + (calls.map Call.weight).sum ≤ 2 ^ 31

/-- The key is in the string table, and that of a used bucket comes with a value in the string table. -/
structure Readable (size : Nat) (bucket : Bucket) : Prop where
  key : 0 ≤ bucket.keyIndex ∧ bucket.keyIndex < size
  value : bucket.keyIndex ≠ 0 →
    (0 ≤ bucket.prefixIndex ∧ bucket.prefixIndex < size) ∧ (0 ≤ bucket.suffixIndex ∧ bucket.suffixIndex < size)

/-- All indices lead to strings, and probing comes to all buckets. -/
structure Intact (hmap : Headermap) : Prop where
  size : isPowerOfTwo hmap.buckets.length = true
  terminated : hmap.stringTable.getLast? = some 0
  readable : ∀ bucket ∈ hmap.buckets, Readable hmap.stringTable.length bucket
  index : ∀ s index, hmap.stringIndexMap s = some index → 0 ≤ index ∧ index < hmap.stringTable.length

/-- The next insert grows the table, or a bucket is free for each entry up to the load factor. -/
def Slack (numEntries : Nat) (buckets : List Bucket) : Prop :=
  3 * (numEntries + 1) > 2 * buckets.length ∨ used buckets + 2 * buckets.length / 3 ≤ buckets.length + numEntries

variable {hmap hmap' : Headermap} {bucket : Bucket} {call : Call} {calls : List Call} {replace : Bool}

theorem Readable.mono {size size' : Nat} (h : Readable size bucket) (hle : size ≤ size') : Readable size' bucket := by
  have hcast : (size : Int) ≤ size' := by exact_mod_cast hle
  refine ⟨⟨h.key.1, h.key.2.trans_le hcast⟩, fun hused => ?_⟩
  obtain ⟨hfront, hback⟩ := h.value hused
  exact ⟨⟨hfront.1, hfront.2.trans_le hcast⟩, ⟨hback.1, hback.2.trans_le hcast⟩⟩

/-! ## Reading the string table -/

theorem exists_stringAt {stringTable : List UInt8} {index : Int} (ht : stringTable.getLast? = some 0)
    (hindex : 0 ≤ index ∧ index < stringTable.length) : ∃ s, StringAt stringTable index s := by
  obtain ⟨k, rfl⟩ := Int.eq_ofNat_of_zero_le hindex.1
  have hk : k < stringTable.length := by exact_mod_cast hindex.2
  have hmem : (0 : UInt8) ∈ stringTable.drop k := by
    apply mem_of_getLast?
    rw [getLast?_drop, if_neg (Nat.not_le.mpr hk)]
    exact ht
  obtain ⟨s, after, hdrop, hs⟩ := eq_append_cons_of_mem hmem
  refine ⟨s, hs, stringTable.take k, after, ?_, ?_⟩
  · rw [← hdrop, take_append_drop]
  · rw [length_take, Nat.min_eq_left hk.le]

/-- The iterator stays inside the string table. -/
theorem Intact.pairs_isSome (h : Intact hmap) : hmap.pairs.isSome = true := by
  unfold pairs
  generalize hl : hmap.buckets.filter (fun bucket => bucket.keyIndex ≠ 0) = l
  have hall : ∀ bucket ∈ l, bucket.keyIndex ≠ 0 ∧ Readable hmap.stringTable.length bucket := by
    intro bucket hmem
    rw [← hl, mem_filter] at hmem
    exact ⟨by simpa using hmem.2, h.readable bucket hmem.1⟩
  clear hl
  induction l with
  | nil => rfl
  | cons bucket l ih =>
    obtain ⟨⟨hused, hreadable⟩, hall⟩ := forall_mem_cons.mp hall
    obtain ⟨hfront, hback⟩ := hreadable.value hused
    obtain ⟨key, hkey⟩ := exists_stringAt h.terminated hreadable.key
    obtain ⟨front, hfront⟩ := exists_stringAt h.terminated hfront
    obtain ⟨back, hback⟩ := exists_stringAt h.terminated hback
    obtain ⟨rest, hrest⟩ := isSome_iff_exists.mp (ih hall)
    rw [mapM_cons, hkey.getString, hfront.getString, hback.getString, hrest]
    rfl

/-! ## Probing -/

/-- The loop of `insertItem` stops at a free bucket at the latest. -/
theorem Intact.insertItemFrom (h : Intact hmap) {hash : Nat}
    (hkey : 0 ≤ bucket.keyIndex ∧ bucket.keyIndex < hmap.stringTable.length) (steps : List Nat)
    (hfree : ∃ i ∈ steps, ∃ found, hmap.buckets[(hash + i) &&& (hmap.buckets.length - 1)]? = some found ∧
      found.keyIndex = 0) :
    ∃ hmap', Headermap.insertItemFrom hmap hash bucket replace steps = some hmap' := by
  obtain ⟨t, ht⟩ := exists_stringAt h.terminated hkey
  induction steps with
  | nil =>
    obtain ⟨i, hi, -⟩ := hfree
    exact absurd hi (by simp)
  | cons i steps ih =>
    have hlt : (hash + i) &&& (hmap.buckets.length - 1) < hmap.buckets.length := by
      obtain ⟨m, hm⟩ := isPowerOfTwo_iff.mp h.size
      have hle : (hash + i) &&& (hmap.buckets.length - 1) ≤ hmap.buckets.length - 1 := Nat.and_le_right
      have hpos : 0 < hmap.buckets.length := hm ▸ Nat.two_pow_pos m
      omega
    have hget : hmap.buckets[(hash + i) &&& (hmap.buckets.length - 1)]? = some _ := getElem?_eq_getElem hlt
    generalize hmap.buckets[(hash + i) &&& (hmap.buckets.length - 1)] = found at hget
    rw [Headermap.insertItemFrom, hget]
    simp only [bind_eq_bind, bind_some]
    by_cases hzero : found.keyIndex = 0
    · rw [if_pos hzero]
      simp [hzero]
    · obtain ⟨s, hs⟩ := exists_stringAt h.terminated (h.readable found (mem_of_getElem? hget)).key
      rw [if_neg hzero, isEqualKey_eq hs ht]
      simp only [bind_some, decide_eq_true_eq]
      split_ifs
      · exact ⟨_, rfl⟩
      · exact ⟨_, rfl⟩
      · -- the free bucket is further on
        apply ih
        obtain ⟨j, hj, hfound⟩ := hfree
        rcases mem_cons.mp hj with rfl | hj
        · obtain ⟨found', hget', hfree⟩ := hfound
          obtain rfl : found = found' := some.inj (hget.symm.trans hget')
          exact absurd hfree hzero
        · exact ⟨j, hj, hfound⟩

theorem exists_free {buckets : List Bucket} (h : used buckets < buckets.length) :
    ∃ (p : Nat) (found : Bucket), buckets[p]? = some found ∧ found.keyIndex = 0 := by
  have hsum := used_add_free buckets
  have hpos : 0 < free buckets := by omega
  obtain ⟨found, hmem, hzero⟩ := countP_pos_iff.mp hpos
  obtain ⟨p, hp⟩ := mem_iff_getElem?.mp hmem
  exact ⟨p, found, hp, by simpa using hzero⟩

/-- An item finds its bucket if one is free. -/
theorem Intact.insertItem (h : Intact hmap) (hb : Readable hmap.stringTable.length bucket)
    (hfree : used hmap.buckets < hmap.buckets.length) (key : List UInt8) (replace : Bool) :
    ∃ hmap', hmap.insertItem key bucket replace = some hmap' ∧ Intact hmap' ∧
      hmap'.stringTable = hmap.stringTable := by
  obtain ⟨m, hm⟩ := isPowerOfTwo_iff.mp h.size
  obtain ⟨p, found, hp, hzero⟩ := exists_free hfree
  obtain ⟨hlt, -⟩ := List.getElem?_eq_some_iff.mp hp
  obtain ⟨i, hi, hposition⟩ : ∃ i < hmap.buckets.length, position hashBytes hmap.buckets.length key i = p :=
    exists_position hlt key
  have hindex : (hashBytes key + i) &&& (hmap.buckets.length - 1) = p := by
    rw [← hposition, position, hm, Nat.and_two_pow_sub_one_eq_mod]
  obtain ⟨hmap', hinsert⟩ : ∃ hmap', hmap.insertItem key bucket replace = some hmap' :=
    h.insertItemFrom hb.key (List.range hmap.buckets.length)
      ⟨i, mem_range.mpr hi, found, by rwa [hindex], hzero⟩
  refine ⟨hmap', hinsert, ?_⟩
  rcases insertItemFrom_cases _ hinsert with ⟨-, rfl⟩ | ⟨index, old, -, rfl⟩
  · exact ⟨h, rfl⟩
  · refine ⟨⟨?_, h.terminated, ?_, h.index⟩, rfl⟩
    · rw [length_set]
      exact h.size
    · intro bucket' hmem
      rcases mem_or_eq_of_mem_set hmem with hmem | rfl
      · exact h.readable bucket' hmem
      · exact hb

/-! ## Growing -/

/-- The loop of `grow` needs one free bucket for each item. -/
theorem Intact.foldlM_insertItem (items : List Bucket) : ∀ {hmap : Headermap}, Intact hmap →
    (∀ bucket ∈ items, Readable hmap.stringTable.length bucket) →
    used hmap.buckets + items.length ≤ hmap.buckets.length →
    ∃ hmap', items.foldlM (fun hmap bucket => do
        let key ← getString hmap.stringTable bucket.keyIndex
        hmap.insertItem key bucket) hmap = some hmap' ∧ Intact hmap' ∧ hmap'.stringTable = hmap.stringTable := by
  induction items with
  | nil => exact fun {hmap} h _ _ => ⟨hmap, rfl, h, rfl⟩
  | cons bucket items ih =>
    intro hmap h hitems hroom
    obtain ⟨hbucket, hitems⟩ := forall_mem_cons.mp hitems
    rw [length_cons] at hroom
    obtain ⟨key, hkey⟩ := exists_stringAt h.terminated hbucket.key
    obtain ⟨hmap₁, hinsert, hintact, htable⟩ := h.insertItem hbucket (by omega) key true
    obtain ⟨hsize, hle, hsurplus⟩ := insertItem_counted hinsert
    have hroom₁ : used hmap₁.buckets + items.length ≤ hmap₁.buckets.length := by omega
    rw [← htable] at hitems
    obtain ⟨hmap', hrest, hintact', htable'⟩ := ih hintact hitems hroom₁
    refine ⟨hmap', ?_, hintact', htable'.trans htable⟩
    rw [foldlM_cons, hkey.getString]
    show (hmap.insertItem key bucket >>= _) = _
    rw [hinsert]
    exact hrest

theorem Intact.grow (h : Intact hmap) :
    ∃ hmap', hmap.grow = some hmap' ∧ Intact hmap' ∧ hmap'.stringTable = hmap.stringTable := by
  have hpos : 0 < hmap.stringTable.length := by
    rw [length_pos_iff]
    rintro hnil
    have hterminated := h.terminated
    rw [hnil] at hterminated
    exact absurd hterminated (by simp)
  let fresh : Headermap := { hmap with buckets := List.replicate (hmap.buckets.length * 2) {}, numEntries := 0 }
  have hfresh : Intact fresh := by
    refine ⟨?_, h.terminated, ?_, h.index⟩
    · obtain ⟨m, hm⟩ := isPowerOfTwo_iff.mp h.size
      rw [isPowerOfTwo_iff, length_replicate, hm]
      exact ⟨m + 1, (pow_succ 2 m).symm⟩
    · intro bucket hbucket
      obtain rfl := eq_of_mem_replicate hbucket
      exact ⟨⟨le_refl 0, Int.natCast_pos.mpr hpos⟩, fun hused => absurd rfl hused⟩
  have hroom : used fresh.buckets + hmap.buckets.length ≤ fresh.buckets.length := by
    rw [used_replicate, length_replicate]
    omega
  unfold Headermap.grow
  rw [if_pos h.size]
  exact hfresh.foldlM_insertItem hmap.buckets h.readable hroom

/-! ## Inserting -/

/-- What looking up a string does to the table. -/
structure Fetched (hmap : Headermap) (s : List UInt8) (index : Int) (hmap' : Headermap) : Prop where
  buckets : hmap'.buckets = hmap.buckets
  numEntries : hmap'.numEntries = hmap.numEntries
  index : 0 ≤ index ∧ index < hmap'.stringTable.length
  le : hmap.stringTable.length ≤ hmap'.stringTable.length
  length_le : hmap'.stringTable.length ≤ hmap.stringTable.length + (s.length + 1)

theorem Intact.getStringIndex (h : Intact hmap) (s : List UInt8) (hfits : hmap.stringTable.length < 2 ^ 31) :
    ∃ index hmap', hmap.getStringIndex s = some (index, hmap') ∧ Intact hmap' ∧ Fetched hmap s index hmap' := by
  unfold Headermap.getStringIndex
  cases hs : hmap.stringIndexMap s with
  | some index => exact ⟨index, hmap, rfl, h, rfl, rfl, h.index s index hs, le_refl _, Nat.le_add_right _ _⟩
  | none =>
    have hint : int32 hmap.stringTable.length = some (hmap.stringTable.length : Int) := if_pos hfits
    have hlength : (hmap.stringTable ++ s ++ [0]).length = hmap.stringTable.length + (s.length + 1) := by
      simp
    have hle : hmap.stringTable.length ≤ (hmap.stringTable ++ s ++ [0]).length := by omega
    have hindex : (0 : Int) ≤ hmap.stringTable.length ∧
        (hmap.stringTable.length : Int) < (hmap.stringTable ++ s ++ [0]).length := by omega
    dsimp only
    rw [hint]
    refine ⟨_, _, rfl, ?_, rfl, rfl, hindex, hle, hlength.le⟩
    refine ⟨h.size, getLast?_concat, fun bucket hbucket => (h.readable bucket hbucket).mono hle, ?_⟩
    intro t index ht
    dsimp only at ht
    by_cases hts : t = s
    · rw [hts, Function.update_self] at ht
      cases ht
      exact hindex
    · rw [Function.update_of_ne hts] at ht
      have hbound := h.index t index ht
      exact ⟨hbound.1, hbound.2.trans_le (by exact_mod_cast hle)⟩

theorem Call.weight_eq (call : Call) :
    call.weight = call.key.length + 1 + ((parts call.value).1.length + 1) + ((parts call.value).2.length + 1) := by
  unfold weight stringsOf
  rw [map_cons, map_cons, map_singleton, sum_cons, sum_cons, sum_singleton]
  omega

/-- An insert that has a free bucket, and room in the string table, stays inside both. -/
theorem Intact.place (h : Intact hmap) (hfree : used hmap.buckets < hmap.buckets.length)
    (hfits : hmap.stringTable.length + call.weight ≤ 2 ^ 31) :
    ∃ hmap', hmap.place call = some hmap' ∧ Intact hmap' ∧
      hmap'.stringTable.length ≤ hmap.stringTable.length + call.weight := by
  have hweight := call.weight_eq
  unfold parts at hweight
  unfold Headermap.place
  obtain ⟨keyIndex, hmap₁, hkey, h₁, hfetched₁⟩ := h.getStringIndex call.key (by omega)
  have hlength₁ := hfetched₁.length_le
  rw [hkey]
  simp only [bind_eq_bind, bind_some]
  split_ifs with hdir
  · rw [if_pos hdir] at hweight
    dsimp only at hweight
    obtain ⟨suffixIndex, hmap₂, hback, h₂, hfetched₂⟩ := h₁.getStringIndex call.value (by omega)
    have hlength₂ := hfetched₂.length_le
    have hreadable : Readable hmap₂.stringTable.length { keyIndex, prefixIndex := 0, suffixIndex } := by
      have hindex := hfetched₂.index
      refine ⟨⟨hfetched₁.index.1, hfetched₁.index.2.trans_le (by exact_mod_cast hfetched₂.le)⟩, fun _ => ?_⟩
      exact ⟨⟨le_refl 0, by dsimp only; omega⟩, hindex⟩
    rw [← hfetched₁.buckets, ← hfetched₂.buckets] at hfree
    obtain ⟨hmap', hinsert, hintact, htable⟩ := h₂.insertItem hreadable hfree call.key call.replace
    refine ⟨hmap', ?_, hintact, ?_⟩
    · rw [hback]
      exact hinsert
    · rw [htable, hweight]
      omega
  · rw [if_neg hdir] at hweight
    dsimp only at hweight
    obtain ⟨prefixIndex, hmap₂, hfront, h₂, hfetched₂⟩ :=
      h₁.getStringIndex ((Path.split call.value).1 ++ [Path.pathSeparatorUTF8]) (by omega)
    have hlength₂ := hfetched₂.length_le
    obtain ⟨suffixIndex, hmap₃, hback, h₃, hfetched₃⟩ := h₂.getStringIndex (Path.split call.value).2 (by omega)
    have hlength₃ := hfetched₃.length_le
    have hreadable : Readable hmap₃.stringTable.length { keyIndex, prefixIndex, suffixIndex } := by
      have hle₃ : (hmap₂.stringTable.length : Int) ≤ hmap₃.stringTable.length := by exact_mod_cast hfetched₃.le
      have hle₂ : (hmap₁.stringTable.length : Int) ≤ hmap₂.stringTable.length := by exact_mod_cast hfetched₂.le
      refine ⟨⟨hfetched₁.index.1, hfetched₁.index.2.trans_le (hle₂.trans hle₃)⟩, fun _ => ?_⟩
      exact ⟨⟨hfetched₂.index.1, hfetched₂.index.2.trans_le hle₃⟩, hfetched₃.index⟩
    rw [← hfetched₁.buckets, ← hfetched₂.buckets, ← hfetched₃.buckets] at hfree
    obtain ⟨hmap', hinsert, hintact, htable⟩ := h₃.insertItem hreadable hfree call.key call.replace
    refine ⟨hmap', ?_, hintact, ?_⟩
    · rw [hfront]
      simp only [bind_some]
      rw [hback]
      exact hinsert
    · rw [htable, hweight]
      omega

/-- An insert leaves enough buckets free for the next one. -/
theorem Intact.insert (h : Intact hmap) (hslack : Slack hmap.numEntries hmap.buckets)
    (hfits : hmap.stringTable.length + call.weight ≤ 2 ^ 31) :
    ∃ hmap', hmap.insert call.key call.value call.replace = some hmap' ∧ Intact hmap' ∧
      Slack hmap'.numEntries hmap'.buckets ∧
      hmap'.stringTable.length ≤ hmap.stringTable.length + call.weight := by
  rw [insert_eq]
  by_cases hgrows : 3 * (hmap.numEntries + 1) > 2 * hmap.buckets.length
  · rw [if_pos hgrows]
    obtain ⟨hmap₁, hgrow, h₁, htable⟩ := h.grow
    obtain ⟨hsize₁, hnum₁, hused₁⟩ := grow_counted hgrow
    have hpos : 0 < hmap.buckets.length := by
      obtain ⟨m, hm⟩ := isPowerOfTwo_iff.mp h.size
      exact hm ▸ Nat.two_pow_pos m
    rw [← htable] at hfits ⊢
    obtain ⟨hmap', hplace, hintact, hlength⟩ := h₁.place (by omega) hfits
    obtain ⟨hsize, hle, hsurplus⟩ := place_counted hplace
    refine ⟨hmap', ?_, hintact, .inr (by omega), hlength⟩
    rw [hgrow]
    exact hplace
  · rw [if_neg hgrows]
    have hroom : used hmap.buckets + 2 * hmap.buckets.length / 3 ≤ hmap.buckets.length + hmap.numEntries :=
      hslack.resolve_left hgrows
    obtain ⟨hmap', hplace, hintact, hlength⟩ := h.place (by omega) hfits
    obtain ⟨hsize, hle, hsurplus⟩ := place_counted hplace
    exact ⟨hmap', hplace, hintact, .inr (by omega), hlength⟩

/-- **Any sequence of inserts** that fits stays inside the string table and the buckets. -/
theorem Intact.insertAll (h : Intact hmap) (hslack : Slack hmap.numEntries hmap.buckets) (hfits : hmap.Fits calls) :
    ∃ hmap', hmap.insertAll calls = some hmap' ∧ Intact hmap' := by
  unfold Headermap.insertAll
  induction calls generalizing hmap with
  | nil => exact ⟨hmap, rfl, h⟩
  | cons call calls ih =>
    unfold Fits at hfits
    rw [map_cons, sum_cons] at hfits
    have hfits₀ : hmap.stringTable.length + call.weight ≤ 2 ^ 31 := by omega
    obtain ⟨hmap₁, hinsert, h₁, hslack₁, hlength⟩ := h.insert hslack hfits₀
    have hfits₁ : hmap₁.Fits calls := by
      unfold Fits
      omega
    obtain ⟨hmap', hrest, hintact⟩ := ih h₁ hslack₁ hfits₁
    refine ⟨hmap', ?_, hintact⟩
    rw [foldlM_cons, hinsert]
    exact hrest

end Headermap

end Builra
