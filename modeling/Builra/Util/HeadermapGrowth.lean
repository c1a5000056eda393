import Builra.Util.HeadermapContents

namespace Builra

open Option List Nat

/-!
# `Util.HeadermapGrowth` — a headermap that has grown counts too many entries

The table has a power of two for its size. `grow` inserts every bucket of the old table, the free ones too, and
each of these counts as an entry of the new one; no later insert makes up for it.
-/

namespace Headermap

/-! ## Powers of two -/

theorem isPowerOfTwo_iff {n : Nat} : isPowerOfTwo n = true ↔ ∃ m, n = 2 ^ m := by
  unfold isPowerOfTwo
  rw [Bool.and_eq_true, decide_eq_true_iff, decide_eq_true_iff]
  exact ne_zero_and_sub_one_eq_zero_iff_isPowerOfTwo

/-- The bits below those of `n`, up to `width` places. -/
def Filled (n width result : Nat) : Prop :=
  ∀ i, result.testBit i = true ↔ ∃ j < width, n.testBit (i + j) = true

theorem Filled.double {n width result : Nat} (h : Filled n width result) :
    Filled n (width + width) (result ||| result >>> width) := by
  intro i
  rw [testBit_or, testBit_shiftRight, Bool.or_eq_true, h i, h (width + i)]
  constructor
  · rintro (⟨j, hj, hbit⟩ | ⟨j, hj, hbit⟩)
    · exact ⟨j, by omega, hbit⟩
    · refine ⟨width + j, by omega, ?_⟩
      rwa [show i + (width + j) = width + i + j by omega]
  · rintro ⟨j, hj, hbit⟩
    by_cases hlt : j < width
    · exact .inl ⟨j, hlt, hbit⟩
    · refine .inr ⟨j - width, by omega, ?_⟩
      rwa [show width + i + (j - width) = i + j by omega]

theorem nextPowerOfTwo_eq {n : Nat} (hn : n ≠ 0) (hlt : n < 2 ^ 64) :
    nextPowerOfTwo n = 2 ^ (Nat.log2 n + 1) := by
  have h₁ : Filled n 1 n := by
    intro i
    constructor
    · exact fun h => ⟨0, Nat.one_pos, h⟩
    · rintro ⟨j, hj, hbit⟩
      obtain rfl : j = 0 := by omega
      exact hbit
  have h₆₄ := h₁.double.double.double.double.double.double
  have htop : Nat.log2 n < 64 := (log2_lt hn).mpr hlt
  have hbit : n.testBit (Nat.log2 n) = true := testBit_log2 hn
  have hfull : nextPowerOfTwo n = 2 ^ (Nat.log2 n + 1) - 1 + 1 := by
    refine congrArg (· + 1) (eq_of_testBit_eq (fun i => ?_))
    rw [testBit_two_pow_sub_one, Bool.eq_iff_iff, decide_eq_true_iff]
    refine (h₆₄ i).trans ⟨?_, fun hi => ?_⟩
    · rintro ⟨j, -, hij⟩
      have hle : i + j ≤ Nat.log2 n := (le_log2 hn).mpr (ge_two_pow_of_testBit hij)
      omega
    · refine ⟨Nat.log2 n - i, by omega, ?_⟩
      rwa [show i + (Nat.log2 n - i) = Nat.log2 n by omega]
  rw [hfull, Nat.sub_add_cancel Nat.one_le_two_pow]

/-- The size of a table is a power of two. -/
theorem roundUpToPowerOfTwo_eq {capacity : Nat} (hpos : 0 < capacity) (hlt : capacity < 2 ^ 63) :
    ∃ m, roundUpToPowerOfTwo capacity = 2 ^ m := by
  unfold roundUpToPowerOfTwo
  split_ifs with h
  · exact isPowerOfTwo_iff.mp h
  · exact ⟨_, nextPowerOfTwo_eq (Nat.ne_of_gt hpos) (by omega)⟩

/-! ## Counting -/

/-- The number of used buckets. -/
def used (buckets : List Bucket) : Nat := buckets.countP (fun bucket => bucket.keyIndex ≠ 0)

/-- The number of free buckets. -/
def free (buckets : List Bucket) : Nat := buckets.countP (fun bucket => bucket.keyIndex = 0)

variable {hmap hmap' : Headermap} {bucket : Bucket} {replace : Bool}

theorem used_add_free (buckets : List Bucket) : used buckets + free buckets = buckets.length := by
  have hlen := length_eq_countP_add_countP (fun bucket : Bucket => decide (bucket.keyIndex ≠ 0)) (l := buckets)
  rw [hlen, used, free]
  simp

/-- An item is dropped, or it is put into a bucket and counted if the bucket was free. -/
theorem insertItemFrom_cases {hash : Nat} (steps : List Nat)
    (h : insertItemFrom hmap hash bucket replace steps = some hmap') :
    (replace = false ∧ hmap' = hmap) ∨
      ∃ (index : Nat) (found : Bucket), hmap.buckets[index]? = some found ∧ hmap' = { hmap with
        numEntries := if found.keyIndex = 0 then hmap.numEntries + 1 else hmap.numEntries
        buckets := hmap.buckets.set index bucket } := by
  induction steps with
  | nil => exact absurd h (by simp [insertItemFrom])
  | cons i rest ih =>
    rw [insertItemFrom] at h
    obtain ⟨found, hfound, h⟩ := bind_eq_some_iff.mp h
    dsimp only at h
    by_cases hfree : found.keyIndex = 0
    · rw [if_pos hfree] at h
      obtain rfl : _ = hmap' := some.inj (h.symm.trans (if_pos hfree)).symm
      exact .inr ⟨_, found, hfound, by rw [if_pos hfree]⟩
    · rw [if_neg hfree] at h
      obtain ⟨stop, -, h⟩ := bind_eq_some_iff.mp h
      cases stop with
      | false => exact ih h
      | true =>
        rw [if_pos rfl, if_neg hfree] at h
        cases replace with
        | false => exact .inl ⟨rfl, (some.inj h).symm⟩
        | true =>
          cases h
          exact .inr ⟨_, found, hfound, by rw [if_neg hfree]⟩

/-- What inserting does to the counts, with `more` entries counted too many. -/
structure Counted (hmap : Headermap) (items more : Nat) (hmap' : Headermap) : Prop where
  size : hmap'.buckets.length = hmap.buckets.length
  le : hmap'.numEntries ≤ hmap.numEntries + items
  surplus : hmap.numEntries + used hmap'.buckets + more ≤ hmap'.numEntries + used hmap.buckets

/-- A free bucket that is inserted is an entry too many. -/
theorem insertItem_counted {key : List UInt8} (h : hmap.insertItem key bucket replace = some hmap') :
    Counted hmap 1 (if bucket.keyIndex = 0 ∧ replace = true then 1 else 0) hmap' := by
  rcases insertItemFrom_cases _ h with ⟨rfl, rfl⟩ | ⟨index, found, hfound, rfl⟩
  · exact ⟨rfl, le_succ _, by simp⟩
  · obtain ⟨hlt, hget⟩ := List.getElem?_eq_some_iff.mp hfound
    have hset : used (hmap.buckets.set index bucket) = used hmap.buckets -
        (if found.keyIndex = 0 then 0 else 1) + (if bucket.keyIndex = 0 then 0 else 1) := by
      rw [used, countP_set hlt, hget]
      simp [used]
    have hle : (if found.keyIndex = 0 then 0 else 1) ≤ used hmap.buckets := by
      have hbound := boole_getElem_le_countP (p := fun bucket : Bucket => bucket.keyIndex ≠ 0) hlt
      rw [hget] at hbound
      simpa [used] using hbound
    have hmore : (if bucket.keyIndex = 0 ∧ replace = true then 1 else 0) +
        (if bucket.keyIndex = 0 then 0 else 1) ≤ 1 := by
      by_cases hbucket : bucket.keyIndex = 0
      · rw [if_pos hbucket]
        split_ifs <;> omega
      · rw [if_neg hbucket, if_neg (fun h => hbucket h.1)]
    refine ⟨length_set, ?_, ?_⟩
    · dsimp only
      split_ifs <;> omega
    · dsimp only
      rw [hset]
      by_cases hfree : found.keyIndex = 0
      · rw [if_pos hfree, if_pos hfree]
        omega
      · rw [if_neg hfree] at hle
        rw [if_neg hfree, if_neg hfree]
        omega

theorem Counted.trans {hmap₁ : Headermap} {items items' more more' : Nat} (h : Counted hmap items more hmap₁)
    (h' : Counted hmap₁ items' more' hmap') : Counted hmap (items + items') (more + more') hmap' := by
  obtain ⟨hsize, hle, hover⟩ := h
  obtain ⟨hsize', hle', hover'⟩ := h'
  exact ⟨hsize'.trans hsize, by omega, by omega⟩

/-- The loop of `grow`: all free buckets are counted. -/
theorem foldlM_insertItem_counted (buckets : List Bucket) :
    ∀ hmap : Headermap, buckets.foldlM (fun hmap bucket => do
        let key ← getString hmap.stringTable bucket.keyIndex
        hmap.insertItem key bucket) hmap = some hmap' →
      Counted hmap buckets.length (free buckets) hmap' := by
  induction buckets with
  | nil =>
    intro hmap h
    cases h
    exact ⟨rfl, Nat.le_refl _, Nat.le_refl _⟩
  | cons bucket rest ih =>
    intro hmap h
    rw [foldlM_cons] at h
    obtain ⟨hmap₁, hitem, hrest⟩ := bind_eq_some_iff.mp h
    obtain ⟨key, -, hitem⟩ := bind_eq_some_iff.mp hitem
    have hcounted := (insertItem_counted hitem).trans (ih hmap₁ hrest)
    rw [free, countP_cons, length_cons, Nat.add_comm rest.length, Nat.add_comm (List.countP _ rest)]
    simpa [free] using hcounted

theorem used_replicate (n : Nat) : used (List.replicate n {}) = 0 := by
  rw [used, countP_replicate]
  rfl

/-- Growing counts an entry for every free bucket. -/
theorem grow_counted (h : hmap.grow = some hmap') :
    hmap'.buckets.length = hmap.buckets.length * 2 ∧ hmap'.numEntries ≤ hmap.buckets.length ∧
      used hmap'.buckets + free hmap.buckets ≤ hmap'.numEntries := by
  unfold grow at h
  rw [ite_none_right_eq_some] at h
  obtain ⟨hsize, hle, hover⟩ := foldlM_insertItem_counted _ _ h.2
  rw [length_replicate] at hsize
  dsimp only at hle hover
  rw [used_replicate] at hover
  exact ⟨hsize, by omega, by omega⟩

theorem getStringIndex_buckets {s : List UInt8} {index : Int} (h : hmap.getStringIndex s = some (index, hmap')) :
    hmap'.buckets = hmap.buckets ∧ hmap'.numEntries = hmap.numEntries := by
  unfold getStringIndex at h
  split at h
  · obtain ⟨-, rfl⟩ := Prod.mk.inj (some.inj h)
    exact ⟨rfl, rfl⟩
  · obtain ⟨start, -, h⟩ := bind_eq_some_iff.mp h
    obtain ⟨-, rfl⟩ := Prod.mk.inj (some.inj h)
    exact ⟨rfl, rfl⟩

theorem place_counted {call : Call} (h : hmap.place call = some hmap') : Counted hmap 1 0 hmap' := by
  unfold place at h
  obtain ⟨⟨keyIndex, hmap₁⟩, hkey, h⟩ := bind_eq_some_iff.mp h
  obtain ⟨hbuckets₁, hnum₁⟩ := getStringIndex_buckets hkey
  dsimp only at h
  split_ifs at h with hdir
  · obtain ⟨⟨suffixIndex, hmap₂⟩, hback, h⟩ := bind_eq_some_iff.mp h
    obtain ⟨hbuckets₂, hnum₂⟩ := getStringIndex_buckets hback
    obtain ⟨hsize, hle, hover⟩ := insertItem_counted h
    rw [hbuckets₂, hbuckets₁] at hsize hover
    rw [hnum₂, hnum₁] at hle hover
    exact ⟨hsize, hle, (Nat.add_le_add_left (zero_le _) _).trans hover⟩
  · obtain ⟨⟨prefixIndex, hmap₂⟩, hfront, h⟩ := bind_eq_some_iff.mp h
    obtain ⟨hbuckets₂, hnum₂⟩ := getStringIndex_buckets hfront
    obtain ⟨⟨suffixIndex, hmap₃⟩, hback, h⟩ := bind_eq_some_iff.mp h
    obtain ⟨hbuckets₃, hnum₃⟩ := getStringIndex_buckets hback
    obtain ⟨hsize, hle, hover⟩ := insertItem_counted h
    rw [hbuckets₃, hbuckets₂, hbuckets₁] at hsize hover
    rw [hnum₃, hnum₂, hnum₁] at hle hover
    exact ⟨hsize, hle, (Nat.add_le_add_left (zero_le _) _).trans hover⟩

/-! ## After growth -/

/-- More entries are counted than buckets are used. -/
structure Overcounted (hmap : Headermap) : Prop where
  surplus : used hmap.buckets < hmap.numEntries
  le : hmap.numEntries ≤ hmap.buckets.length

variable {call : Call}

/-- Growing a table with a free bucket. -/
theorem grow_overcounted (hfree : used hmap.buckets < hmap.buckets.length) (h : hmap.grow = some hmap') :
    used hmap'.buckets < hmap'.numEntries ∧ hmap'.numEntries + 1 ≤ hmap'.buckets.length := by
  obtain ⟨hsize, hle, hover⟩ := grow_counted h
  have hsum := used_add_free hmap.buckets
  exact ⟨by omega, by omega⟩

theorem place_overcounted (hover : used hmap.buckets < hmap.numEntries)
    (hroom : hmap.numEntries + 1 ≤ hmap.buckets.length) (h : hmap.place call = some hmap') :
    Overcounted hmap' := by
  obtain ⟨hsize, hle, hmore⟩ := place_counted h
  exact ⟨by omega, by omega⟩

/-- **An insert that grows** a table with a free bucket. -/
theorem insert_overcounted_of_grow (hfree : used hmap.buckets < hmap.buckets.length)
    (hgrow : 3 * (hmap.numEntries + 1) > 2 * hmap.buckets.length)
    (h : hmap.insert call.key call.value call.replace = some hmap') : Overcounted hmap' := by
  rw [insert_eq, if_pos hgrow] at h
  obtain ⟨hmap₁, hgrown, hplace⟩ := bind_eq_some_iff.mp h
  obtain ⟨hover, hroom⟩ := grow_overcounted hfree hgrown
  exact place_overcounted hover hroom hplace

/-- **No insert** makes up for the entries counted too many. -/
theorem Overcounted.insert (ho : Overcounted hmap) (h : hmap.insert call.key call.value call.replace = some hmap') :
    Overcounted hmap' := by
  by_cases hgrow : 3 * (hmap.numEntries + 1) > 2 * hmap.buckets.length
  · exact insert_overcounted_of_grow (Nat.lt_of_lt_of_le ho.surplus ho.le) hgrow h
  · rw [insert_eq, if_neg hgrow] at h
    have hroom : hmap.numEntries + 1 ≤ hmap.buckets.length := by omega
    exact place_overcounted ho.surplus hroom h

end Headermap

end Builra
