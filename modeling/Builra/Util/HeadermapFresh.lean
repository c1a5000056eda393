import Builra.Util.HeadermapSafety

namespace Builra

open List Option

/-!
# `Util.HeadermapFresh` — inserts of keys that are in no bucket

Keys that are longer than every string of the table fill one bucket after the other until the table grows, whatever the
table was loaded from.
-/

namespace Headermap

variable {hmap hmap' : Headermap} {bucket : Bucket} {s : List UInt8} {index : Int} {n : Nat}

theorem nonneg_of_getString {stringTable : List UInt8} (h : getString stringTable index = some s) : 0 ≤ index := by
  unfold getString at h
  split_ifs at h with hindex
  exact hindex.1

/-- The iterator reads all indices of used buckets. -/
theorem nonneg_of_pairs (h : hmap.pairs.isSome = true) : ∀ bucket ∈ hmap.buckets, bucket.keyIndex ≠ 0 →
    0 ≤ bucket.keyIndex ∧ 0 ≤ bucket.prefixIndex ∧ 0 ≤ bucket.suffixIndex := by
  intro bucket hbucket hused
  have hmem : bucket ∈ hmap.buckets.filter (fun bucket => bucket.keyIndex ≠ 0) := by
    rw [mem_filter]
    exact ⟨hbucket, by simpa using hused⟩
  unfold pairs at h
  generalize hmap.buckets.filter (fun bucket => bucket.keyIndex ≠ 0) = l at h hmem
  induction l with
  | nil => exact absurd hmem (by simp)
  | cons first l ih =>
    rw [mapM_cons] at h
    obtain ⟨result, hresult⟩ := isSome_iff_exists.mp h
    obtain ⟨pair, hpair, hresult⟩ := bind_eq_some_iff.mp hresult
    obtain ⟨rest, hrest, -⟩ := bind_eq_some_iff.mp hresult
    rcases mem_cons.mp hmem with rfl | hmem
    · obtain ⟨key, hkey, hpair⟩ := bind_eq_some_iff.mp hpair
      obtain ⟨front, hfront, hpair⟩ := bind_eq_some_iff.mp hpair
      obtain ⟨back, hback, -⟩ := bind_eq_some_iff.mp hpair
      exact ⟨nonneg_of_getString hkey, nonneg_of_getString hfront, nonneg_of_getString hback⟩
    · exact ih (isSome_iff_exists.mpr ⟨rest, hrest⟩) hmem

/-- All strings are shorter than `n`. -/
structure Below (hmap : Headermap) (n : Nat) : Prop where
  pos : 0 < hmap.stringTable.length
  key : ∀ bucket ∈ hmap.buckets, bucket.keyIndex ≠ 0 →
    ∃ s, StringAt hmap.stringTable bucket.keyIndex s ∧ s.length < n
  string : ∀ s index, hmap.stringIndexMap s = some index → s.length < n

theorem getStringIndex_cases (h : hmap.getStringIndex s = some (index, hmap')) :
    (hmap.stringIndexMap s = some index ∧ hmap' = hmap) ∨
      (hmap.stringIndexMap s = none ∧ index = hmap.stringTable.length ∧ hmap' = { hmap with
        stringTable := hmap.stringTable ++ s ++ [0]
        stringIndexMap := Function.update hmap.stringIndexMap s (some index) }) := by
  unfold getStringIndex at h
  split at h
  case h_1 found hfound =>
    cases h
    exact .inl ⟨hfound, rfl⟩
  case h_2 hnone =>
    obtain ⟨start, hstart, h⟩ := bind_eq_some_iff.mp h
    cases h
    obtain ⟨-, hstart⟩ := ite_none_right_eq_some.mp hstart
    exact .inr ⟨hnone, (some.inj hstart).symm, rfl⟩

theorem Below.getStringIndex {m : Nat} (h : Below hmap n) (hle : n ≤ m) (hs : s.length < m)
    (hfetch : hmap.getStringIndex s = some (index, hmap')) : Below hmap' m := by
  rcases getStringIndex_cases hfetch with ⟨-, rfl⟩ | ⟨-, rfl, rfl⟩
  · refine ⟨h.pos, fun bucket hbucket hused => ?_, fun t i ht => (h.string t i ht).trans_le hle⟩
    obtain ⟨t, ht, hlt⟩ := h.key bucket hbucket hused
    exact ⟨t, ht, hlt.trans_le hle⟩
  · refine ⟨by simp, fun bucket hbucket hused => ?_, fun t i ht => ?_⟩
    · obtain ⟨t, ht, hlt⟩ := h.key bucket hbucket hused
      dsimp only
      rw [append_assoc]
      exact ⟨t, ht.mono _, hlt.trans_le hle⟩
    · dsimp only at ht
      by_cases hts : t = s
      · rw [hts]
        exact hs
      · rw [Function.update_of_ne hts] at ht
        exact (h.string t i ht).trans_le hle

/-- An item whose key is in no bucket needs a free one. -/
theorem insertItemFrom_fresh {hash : Nat} {replace : Bool}
    (hne : ∀ found ∈ hmap.buckets, found.keyIndex ≠ 0 →
      isEqualKey hmap.stringTable found.keyIndex bucket.keyIndex = some false) (steps : List Nat)
    (h : insertItemFrom hmap hash bucket replace steps = some hmap') :
    ∃ (p : Nat) (found : Bucket), hmap.buckets[p]? = some found ∧ found.keyIndex = 0 ∧
      hmap' = { hmap with numEntries := hmap.numEntries + 1, buckets := hmap.buckets.set p bucket } := by
  induction steps with
  | nil => exact absurd h (by simp [insertItemFrom])
  | cons i steps ih =>
    rw [insertItemFrom] at h
    obtain ⟨found, hfound, h⟩ := bind_eq_some_iff.mp h
    dsimp only at h
    by_cases hfree : found.keyIndex = 0
    · rw [if_pos hfree] at h
      obtain rfl : _ = hmap' := some.inj (h.symm.trans (if_pos hfree)).symm
      exact ⟨_, found, hfound, hfree, rfl⟩
    · rw [if_neg hfree, hne found (mem_of_getElem? hfound) hfree] at h
      exact ih h

/-- A call with a key of length `n`. -/
def freshCall (n : Nat) : Call where
  key := List.replicate n 97
  value := []

theorem used_set_free {buckets : List Bucket} {p : Nat} {found : Bucket} (hfound : buckets[p]? = some found)
    (hfree : found.keyIndex = 0) (hused : bucket.keyIndex ≠ 0) : used (buckets.set p bucket) = used buckets + 1 := by
  obtain ⟨hlt, hget⟩ := List.getElem?_eq_some_iff.mp hfound
  rw [used, countP_set hlt, hget]
  simp [used, hfree, hused]

/-- What inserts of fresh keys, `k` of them, do to the counts. -/
structure Fills (hmap : Headermap) (k : Nat) (hmap' : Headermap) : Prop where
  size : hmap'.buckets.length = hmap.buckets.length
  numEntries : hmap'.numEntries = hmap.numEntries + k
  used : used hmap'.buckets = used hmap.buckets + k

/-- A fresh key goes to a free bucket. -/
theorem Below.insert (h : Below hmap n) (hgrows : ¬ 3 * (hmap.numEntries + 1) > 2 * hmap.buckets.length)
    (hinsert : hmap.insert (freshCall n).key (freshCall n).value (freshCall n).replace = some hmap') :
    Below hmap' (n + 1) ∧ Fills hmap 1 hmap' := by
  have hlength : (freshCall n).key.length = n := length_replicate
  have hnul : (0 : UInt8) ∉ (freshCall n).key := by
    intro hmem
    exact absurd (eq_of_mem_replicate hmem) (by decide)
  rw [insert_eq, if_neg hgrows] at hinsert
  obtain ⟨⟨keyIndex, hmap₁⟩, hkey, hplace⟩ := bind_eq_some_iff.mp (bind_some _ _ ▸ hinsert)
  have hsplit : (Path.split (freshCall n).value).1 = [] := by
    show (Path.split []).1 = []
    decide
  have hvalue : (freshCall n).value.length < n + 1 := Nat.succ_pos n
  dsimp only at hplace
  rw [if_pos hsplit] at hplace
  obtain ⟨⟨suffixIndex, hmap₂⟩, hback, hitem⟩ := bind_eq_some_iff.mp hplace
  have hbelow₁ : Below hmap₁ (n + 1) := h.getStringIndex (Nat.le_succ n) (by omega) hkey
  have hbelow₂ : Below hmap₂ (n + 1) := hbelow₁.getStringIndex (le_refl _) hvalue hback
  obtain ⟨hbuckets₁, hnum₁⟩ := getStringIndex_buckets hkey
  obtain ⟨hbuckets₂, hnum₂⟩ := getStringIndex_buckets hback
  -- the key is new, and stands behind the strings of the other buckets
  have hfresh : keyIndex = hmap.stringTable.length ∧
      hmap₁.stringTable = hmap.stringTable ++ (freshCall n).key ++ [0] := by
    rcases getStringIndex_cases hkey with ⟨hsome, -⟩ | ⟨-, rfl, rfl⟩
    · have hlt := h.string _ _ hsome
      omega
    · exact ⟨rfl, rfl⟩
  obtain ⟨more, hmore⟩ : ∃ more, hmap₂.stringTable = hmap₁.stringTable ++ more := by
    rcases getStringIndex_cases hback with ⟨-, rfl⟩ | ⟨-, -, rfl⟩
    · exact ⟨[], (append_nil _).symm⟩
    · exact ⟨_, append_assoc _ _ _⟩
  have hat : StringAt hmap₂.stringTable keyIndex (freshCall n).key := by
    rw [hmore, hfresh.2, hfresh.1]
    exact (stringAt_end hmap.stringTable hnul).mono more
  have hne : ∀ found ∈ hmap₂.buckets, found.keyIndex ≠ 0 →
      isEqualKey hmap₂.stringTable found.keyIndex keyIndex = some false := by
    intro found hmem hused
    rw [hbuckets₂, hbuckets₁] at hmem
    obtain ⟨s, hs, hlt⟩ := h.key found hmem hused
    have hs₂ : StringAt hmap₂.stringTable found.keyIndex s := by
      rw [hmore, hfresh.2, append_assoc, append_assoc]
      exact hs.mono _
    rw [isEqualKey_eq hs₂ hat]
    have hdiffers : s.map tolower ≠ (freshCall n).key.map tolower := by
      intro heq
      have hlengths := congrArg List.length heq
      rw [length_map, length_map] at hlengths
      omega
    rw [decide_eq_false hdiffers]
  obtain ⟨p, found, hfound, hfree, rfl⟩ := insertItemFrom_fresh hne _ hitem
  have hused : keyIndex ≠ 0 := by
    have hpos := h.pos
    omega
  refine ⟨⟨hbelow₂.pos, fun bucket hbucket hused => ?_, hbelow₂.string⟩, ?_, ?_, ?_⟩
  · rcases mem_or_eq_of_mem_set hbucket with hbucket | rfl
    · exact hbelow₂.key bucket hbucket hused
    · exact ⟨_, hat, by omega⟩
  · rw [length_set, hbuckets₂, hbuckets₁]
  · dsimp only
    rw [hnum₂, hnum₁]
  · dsimp only
    rw [used_set_free hfound hfree hused, hbuckets₂, hbuckets₁]

/-- Fresh keys fill the table up to the load factor. -/
theorem Below.insertAll (k : Nat) : ∀ {hmap : Headermap} {n : Nat}, Below hmap n →
    (∀ j < k, ¬ 3 * (hmap.numEntries + j + 1) > 2 * hmap.buckets.length) →
    hmap.insertAll ((List.range' n k).map freshCall) = some hmap' → Fills hmap k hmap' := by
  induction k with
  | zero =>
    intro hmap n _ _ hinserts
    cases hinserts
    exact ⟨rfl, rfl, rfl⟩
  | succ k ih =>
    intro hmap n h hroom hinserts
    rw [range'_succ, map_cons] at hinserts
    unfold Headermap.insertAll at hinserts
    rw [foldlM_cons] at hinserts
    obtain ⟨hmap₁, hinsert, hrest⟩ := bind_eq_some_iff.mp hinserts
    obtain ⟨hbelow, hsize, hnum, hused⟩ := h.insert (hroom 0 (Nat.succ_pos k)) hinsert
    have hroom₁ : ∀ j < k, ¬ 3 * (hmap₁.numEntries + j + 1) > 2 * hmap₁.buckets.length := by
      intro j hj
      have hnext := hroom (j + 1) (Nat.succ_lt_succ hj)
      omega
    obtain ⟨hsize', hnum', hused'⟩ := ih hbelow hroom₁ hrest
    exact ⟨hsize'.trans hsize, by omega, by omega⟩

/-- **Inserts of fresh keys up to the one that grows the table** need a power of two of buckets, and a free bucket for
each key before. -/
theorem Below.slack (h : Below hmap n) (hinserts : ∀ k, k ≤ hmap.buckets.length →
      ∃ hmap', hmap.insertAll ((List.range' n (k + 1)).map freshCall) = some hmap') :
    isPowerOfTwo hmap.buckets.length = true ∧ Slack hmap.numEntries hmap.buckets := by
  generalize hk : 2 * hmap.buckets.length / 3 - hmap.numEntries = k
  obtain ⟨hmap', hall⟩ := hinserts k (by omega)
  rw [range'_1_concat, map_append, map_singleton, insertAll_append] at hall
  obtain ⟨hmap₁, hfirst, hlast⟩ := bind_eq_some_iff.mp hall
  obtain ⟨hsize, hnum, hused⟩ := h.insertAll k (fun j hj => by omega) hfirst
  have hsum := used_add_free hmap₁.buckets
  rw [insert_eq, if_pos (by omega)] at hlast
  obtain ⟨hmap₂, hgrow, -⟩ := bind_eq_some_iff.mp hlast
  unfold grow at hgrow
  obtain ⟨hpower, -⟩ := ite_none_right_eq_some.mp hgrow
  rw [hsize] at hpower
  refine ⟨hpower, ?_⟩
  by_cases hgrows : 3 * (hmap.numEntries + 1) > 2 * hmap.buckets.length
  · exact .inl hgrows
  · exact .inr (by omega)

end Headermap

end Builra
