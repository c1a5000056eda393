import Builra.Core.SQLiteBuildDB
import Builra.Lib.Rows

namespace Builra

open List Function Nat
open Option hiding mem_map

/-!
# `Core.BuildDBRoundTrip` — the database returns the last result that was set

The invariant has three parts: the tables are well formed, they hold the last result of every key
(`Tables.Holds`), and the caches of every database object agree with `key_names` (`DB.Consistent`). Each
helper of the source gets one lemma; `buildDB_roundTrip` puts them together over any run of any number of
engines.
-/

open Codec

namespace SQLiteBuildDB

/-! ## The tables -/

namespace Tables

/-- The key has this id in `key_names`. -/
def Named (t : Tables) (id : DBKeyID) (key : KeyType) : Prop := (⟨id, key⟩ : KeyName) ∈ t.keyNames

/-- Ids and keys are unique, no id is zero, and there is one result for each id. -/
structure WellFormed (t : Tables) : Prop where
  ids : (t.keyNames.map (fun row => row.id)).Nodup
  keys : (t.keyNames.map (fun row => row.key)).Nodup
  pos : ∀ row ∈ t.keyNames, row.id ≠ 0
  results : (t.ruleResults.map (fun row => row.keyID)).Nodup

/-- Row ids stay below 2^62, so that two flags fit beside them. -/
def Bounded (t : Tables) : Prop := ∀ row ∈ t.keyNames, row.id < 2 ^ 62

/-- Rows of `key_names` are only added. -/
def Extends (t t' : Tables) : Prop := t.keyNames ⊆ t'.keyNames

variable {t t' : Tables} {id id' : DBKeyID} {key key' : KeyType}

theorem WellFormed.name_unique (h : t.WellFormed) (hn : t.Named id key) (hn' : t.Named id key') : key = key' := by
  have := inj_on_of_nodup_map h.ids hn hn' rfl
  simpa using this

theorem WellFormed.id_unique (h : t.WellFormed) (hn : t.Named id key) (hn' : t.Named id' key) : id = id' := by
  have := inj_on_of_nodup_map h.keys hn hn' rfl
  simpa using this

theorem Named.mono (hn : t.Named id key) (h : t.Extends t') : t'.Named id key := h hn

theorem WellFormed.findKeyIDForKey (h : t.WellFormed) :
    t.findKeyIDForKey key = some id ↔ t.Named id key := by
  unfold Tables.findKeyIDForKey
  rw [map_eq_some_iff]
  constructor
  · rintro ⟨row, hfind, rfl⟩
    obtain ⟨hrow, rfl⟩ := (Rows.find?_eq_some_iff h.keys).mp hfind
    exact hrow
  · intro hn
    exact ⟨_, (Rows.find?_eq_some_iff h.keys).mpr ⟨hn, rfl⟩, rfl⟩

theorem WellFormed.findKeyNameForKeyID (h : t.WellFormed) (hn : t.Named id key) :
    t.findKeyNameForKeyID id = some key := by
  unfold Tables.findKeyNameForKeyID
  rw [map_eq_some_iff]
  exact ⟨_, (Rows.find?_eq_some_iff h.ids).mpr ⟨hn, rfl⟩, rfl⟩

theorem lt_nextRowID : ∀ row ∈ t.keyNames, row.id < t.nextRowID := by
  intro row hrow
  have hle := (Rows.le_foldl_max (t.keyNames.map (fun row => row.id)) 0).2 row.id (mem_map_of_mem hrow)
  exact lt_succ_of_le hle

theorem WellFormed.insertIntoKeys (h : t.WellFormed) (hnew : t.findKeyIDForKey key = none) :
    (t.insertIntoKeys key).2.WellFormed := by
  have hkey : ∀ row ∈ t.keyNames, row.key ≠ key := by
    intro row hrow heq
    have : t.Named row.id key := by
      rw [← heq]
      exact hrow
    rw [h.findKeyIDForKey.mpr this] at hnew
    cases hnew
  constructor
  · apply Rows.nodup_append_row h.ids
    intro row hrow
    exact Nat.ne_of_lt (lt_nextRowID row hrow)
  · exact Rows.nodup_append_row h.keys hkey
  · intro row hrow
    rcases mem_append.mp hrow with hrow | hrow
    · exact h.pos row hrow
    · rw [mem_singleton.mp hrow]
      exact succ_ne_zero _
  · exact h.results

/-! ### What a row stands for -/

/-- The bytes are the packed dependencies. -/
inductive Blob (t : Tables) : List UInt8 → List (KeyIDAndFlags KeyType) → Prop where
  | nil : Blob t [] []
  | cons {id d bytes ds}
      (hname : t.Named id d.keyID) (hrest : Blob t bytes ds) :
      Blob t (encode (DB.packDependency id d.orderOnly d.singleUse) ++ bytes) (d :: ds)

/-- The row stands for the result. -/
structure Represents (t : Tables) (row : RuleResult) (r : StoredResult KeyType) : Prop where
  value : row.value = r.value
  signature : row.signature = r.signature.toInt64
  builtAt : row.builtAt = r.builtAt.toInt64
  computedAt : row.computedAt = r.computedAt.toInt64
  startTime : row.startTime = r.startTime
  endTime : row.endTime = r.endTime
  dependencies : t.Blob row.dependencies r.dependencies

/-- The tables hold the results of the store: a named row stands for the result of its key, and every result
    has its row. -/
structure Holds (t : Tables) (store : Store) : Prop where
  sound : ∀ row ∈ t.ruleResults, ∀ key, t.Named row.keyID key → ∃ r, store key = some r ∧ t.Represents row r
  complete : ∀ key r, store key = some r → ∃ row ∈ t.ruleResults, t.Named row.keyID key
  named : ∀ row ∈ t.ruleResults, ∃ key, t.Named row.keyID key

theorem Blob.mono {bytes : List UInt8} {ds : List (KeyIDAndFlags KeyType)} (hb : t.Blob bytes ds)
    (h : t.Extends t') : t'.Blob bytes ds := by
  induction hb with
  | nil => exact .nil
  | cons hname _ ih => exact .cons (hname.mono h) ih

theorem Blob.length {bytes : List UInt8} {ds : List (KeyIDAndFlags KeyType)} (hb : t.Blob bytes ds) :
    bytes.length = ds.length * 8 := by
  induction hb with
  | nil => rfl
  | cons _ _ ih =>
    rw [length_append, length_encode_uint64, ih, length_cons]
    omega

variable {row : RuleResult}

theorem Represents.mono {r : StoredResult KeyType} (hr : t.Represents row r) (h : t.Extends t') : t'.Represents row r :=
  { hr with dependencies := hr.dependencies.mono h }

/-- New names do not change what the tables hold. -/
theorem Holds.mono {store : Store} (hh : t.Holds store) (hwf : t'.WellFormed) (h : t.Extends t')
    (hres : t'.ruleResults = t.ruleResults) : t'.Holds store := by
  constructor
  · intro row hrow key hname
    rw [hres] at hrow
    -- the key of the row was known before
    obtain ⟨key', hname'⟩ := hh.named row hrow
    obtain rfl := hwf.name_unique hname (hname'.mono h)
    obtain ⟨r, hstore, hr⟩ := hh.sound row hrow key hname'
    exact ⟨r, hstore, hr.mono h⟩
  · intro key r hstore
    obtain ⟨row, hrow, hname⟩ := hh.complete key r hstore
    exact ⟨row, hres ▸ hrow, hname.mono h⟩
  · intro row hrow
    obtain ⟨key, hname⟩ := hh.named row (hres ▸ hrow)
    exact ⟨key, hname.mono h⟩

theorem WellFormed.result_unique (h : t.WellFormed) {row' : RuleResult} (hrow : row ∈ t.ruleResults)
    (hrow' : row' ∈ t.ruleResults) (heq : row.keyID = row'.keyID) : row = row' :=
  inj_on_of_nodup_map h.results hrow hrow' heq

/-- Setting a result changes it for its key only. -/
theorem Holds.insertIntoRuleResults {store : Store} (hh : t.Holds store) (hwf : t.WellFormed)
    (row : RuleResult) {r : StoredResult KeyType} (hname : t.Named row.keyID key) (hr : t.Represents row r) :
    (t.insertIntoRuleResults row).WellFormed ∧
      (t.insertIntoRuleResults row).Holds (Function.update store key (some r)) := by
  have hmem : ∀ old, old ∈ (t.insertIntoRuleResults row).ruleResults ↔
      (old ∈ t.ruleResults ∧ old.keyID ≠ row.keyID) ∨ old = row := by
    intro old
    simp [Tables.insertIntoRuleResults]
  have hext : t.Extends (t.insertIntoRuleResults row) := fun _ h => h
  refine ⟨⟨hwf.ids, hwf.keys, hwf.pos, ?_⟩, ⟨?_, ?_, ?_⟩⟩
  · apply Rows.nodup_append_row (hwf.results.sublist (filter_sublist.map _))
    intro old hold
    simpa using (mem_filter.mp hold).2
  · intro old hold key' hname'
    rcases (hmem old).mp hold with ⟨hold, hne⟩ | rfl
    · have hkey : key' ≠ key := by
        rintro rfl
        exact hne (hwf.id_unique hname' hname)
      obtain ⟨r', hstore, hr'⟩ := hh.sound old hold key' hname'
      exact ⟨r', by rw [update_of_ne hkey, hstore], hr'.mono hext⟩
    · obtain rfl : key' = key := hwf.name_unique hname' hname
      exact ⟨r, by rw [update_self], hr.mono hext⟩
  · intro key' r' hstore
    by_cases hkey : key' = key
    · subst hkey
      exact ⟨row, (hmem row).mpr (.inr rfl), hname⟩
    · rw [update_of_ne hkey] at hstore
      obtain ⟨old, hold, hname'⟩ := hh.complete key' r' hstore
      refine ⟨old, (hmem old).mpr (.inl ⟨hold, ?_⟩), hname'⟩
      intro heq
      rw [heq] at hname'
      exact hkey (hwf.name_unique hname' hname)
  · intro old hold
    rcases (hmem old).mp hold with ⟨hold, -⟩ | rfl
    · exact hh.named old hold
    · exact ⟨key, hname⟩

/-! ### The two ways to find a row -/

theorem mem_join {name : KeyName} :
    (row, name) ∈ t.join ↔ row ∈ t.ruleResults ∧ name ∈ t.keyNames ∧ name.id = row.keyID := by
  unfold join
  simp only [mem_flatMap, mem_map, mem_filter, decide_eq_true_eq, Prod.mk.injEq]
  constructor
  · rintro ⟨row', hrow, name', ⟨hname, hid⟩, rfl, rfl⟩
    exact ⟨hrow, hname, hid⟩
  · rintro ⟨hrow, hname, hid⟩
    exact ⟨row, hrow, name, ⟨hname, hid⟩, rfl, rfl⟩

section

variable (h : t.WellFormed)
include h

theorem WellFormed.fastFindRuleResult :
    t.fastFindRuleResult id = some row ↔ row ∈ t.ruleResults ∧ row.keyID = id :=
  Rows.find?_eq_some_iff h.results

theorem WellFormed.findRuleResult :
    t.findRuleResult key = some row ↔ row ∈ t.ruleResults ∧ t.Named row.keyID key := by
  unfold Tables.findRuleResult
  rw [map_eq_some_iff]
  have hsound : ∀ entry : RuleResult × KeyName, entry ∈ t.join → entry.2.key = key →
      entry.1 ∈ t.ruleResults ∧ t.Named entry.1.keyID key := by
    intro entry hmem hkey
    obtain ⟨hrow, hname, hid⟩ := mem_join.mp hmem
    refine ⟨hrow, ?_⟩
    rw [← hid, ← hkey]
    exact hname
  constructor
  · rintro ⟨entry, hfind, rfl⟩
    exact hsound entry (mem_of_find?_eq_some hfind) (by simpa using find?_some hfind)
  · rintro ⟨hrow, hname⟩
    obtain ⟨entry, hentry⟩ : ∃ entry, t.join.find? (fun entry => entry.2.key = key) = some entry := by
      rw [← isSome_iff_exists, find?_isSome]
      exact ⟨(row, ⟨row.keyID, key⟩), mem_join.mpr ⟨hrow, hname, rfl⟩, by simp⟩
    obtain ⟨hrow', hname'⟩ := hsound entry (mem_of_find?_eq_some hentry)
      (by simpa using find?_some hentry)
    exact ⟨entry, hentry, h.result_unique hrow' hrow (h.id_unique hname' hname)⟩

/-- The join has one row for each key. -/
theorem WellFormed.join_keys_nodup : (t.join.map (fun entry => entry.2.key)).Nodup := by
  have hjoin : t.join.Nodup := by
    unfold join
    rw [nodup_flatMap]
    constructor
    · intro row _
      exact ((List.Nodup.of_map _ h.ids).filter _).map (fun _ _ heq => (Prod.mk.inj heq).2)
    · refine (pairwise_map.mp h.results).imp ?_
      intro row row' hne entry hentry hentry'
      obtain ⟨name, -, rfl⟩ := mem_map.mp hentry
      obtain ⟨name', -, heq⟩ := mem_map.mp hentry'
      exact hne (congrArg RuleResult.keyID (Prod.mk.inj heq).1.symm)
  refine hjoin.map_on ?_
  rintro ⟨row, name⟩ hmem ⟨row', name'⟩ hmem' heq
  obtain ⟨hrow, hname, hid⟩ := mem_join.mp hmem
  obtain ⟨hrow', hname', hid'⟩ := mem_join.mp hmem'
  obtain rfl : name = name' := inj_on_of_nodup_map h.keys hname hname' heq
  rw [h.result_unique hrow hrow' (hid.symm.trans hid')]

/-- **The cached id and the join find the same row.** -/
theorem WellFormed.paths_agree (hname : t.Named id key) :
    t.fastFindRuleResult id = t.findRuleResult key := by
  apply Option.ext
  intro row
  rw [h.fastFindRuleResult, h.findRuleResult]
  constructor
  · rintro ⟨hrow, rfl⟩
    exact ⟨hrow, hname⟩
  · rintro ⟨hrow, hname'⟩
    exact ⟨hrow, h.id_unique hname' hname⟩

end

end Tables

/-! ## The database object -/

namespace DB

/-! ### Packing -/

theorem toNat_packDependency {id : Nat} (h : id < 2 ^ 62) (orderOnly singleUse : Bool) :
    (packDependency id orderOnly singleUse).toNat = 4 * id + 2 * singleUse.toNat + orderOnly.toNat := by
  have hid : (UInt64.ofNat id).toNat = id := UInt64.toNat_ofNat_of_lt' (Nat.lt_trans h (by decide))
  have hshift : (UInt64.ofNat id <<< 2).toNat = 4 * id := by
    rw [UInt64.toNat_shiftLeft, hid]
    show (id <<< 2) % 2 ^ 64 = 4 * id
    rw [shiftLeft_eq]
    omega
  have hflags : ∀ b : Bool, b.toUInt64.toNat = b.toNat := by decide
  have hsingle : (singleUse.toUInt64 <<< 1).toNat = 2 * singleUse.toNat := by
    cases singleUse <;> decide
  have hlt := singleUse.toNat_lt
  have hlt' := orderOnly.toNat_lt
  unfold packDependency
  rw [UInt64.toNat_add, UInt64.toNat_add, hshift, hsingle, hflags]
  omega

theorem unpackDependency {id : Nat} (h : id < 2 ^ 62) (orderOnly singleUse : Bool) :
    (packDependency id orderOnly singleUse >>> 2).toNat = id ∧
    decide (packDependency id orderOnly singleUse &&& 1 ≠ 0) = orderOnly ∧
    decide ((packDependency id orderOnly singleUse >>> 1) &&& 1 ≠ 0) = singleUse := by
  have hraw := toNat_packDependency h orderOnly singleUse
  generalize packDependency id orderOnly singleUse = raw at hraw ⊢
  have hlt := singleUse.toNat_lt
  have hlt' := orderOnly.toNat_lt
  have hbit : ∀ x : UInt64, (x &&& 1 ≠ 0) ↔ x.toNat % 2 = 1 := by
    intro x
    rw [Ne, ← UInt64.toNat_inj, UInt64.toNat_and]
    show ¬ (x.toNat &&& 1 = 0) ↔ _
    rw [and_one_is_mod]
    omega
  refine ⟨?_, ?_, ?_⟩
  · rw [UInt64.toNat_shiftRight]
    show raw.toNat >>> 2 = id
    rw [shiftRight_eq_div_pow]
    omega
  · rw [Bool.eq_iff_iff, decide_eq_true_iff, hbit]
    cases orderOnly <;> simp at hraw ⊢ <;> omega
  · have hshift : (raw >>> 1).toNat = raw.toNat / 2 := by
      rw [UInt64.toNat_shiftRight]
      exact shiftRight_eq_div_pow _ 1
    rw [Bool.eq_iff_iff, decide_eq_true_iff, hbit, hshift]
    cases singleUse <;> simp at hraw ⊢ <;> omega

/-! ### The caches -/

/-- The caches are inverse to each other and agree with `key_names`. -/
structure Consistent (t : Tables) (s : DB) : Prop where
  nodup : s.keyTable.Nodup
  inverse : ∀ id k, s.engineKeyIDs id = some k ↔ s.dbKeyIDs k = some id
  named : ∀ id k, s.dbKeyIDs k = some id → ∃ key, s.keyTable[k]? = some key ∧ t.Named id key

variable {t t' : Tables} {s s' : DB} {id : DBKeyID} {k : KeyID} {key : KeyType}

theorem getKeyForID_of (hk : s.keyTable[k]? = some key) : s.getKeyForID k = key := by
  simp [getKeyForID, List.getD, hk]

/-- Interned keys keep their ids. -/
theorem getElem?_of_grown (h : s.keyTable <+: s'.keyTable) (hk : s.keyTable[k]? = some key) :
    s'.keyTable[k]? = some key := by
  obtain ⟨more, hmore⟩ := h
  obtain ⟨hlt, -⟩ := List.getElem?_eq_some_iff.mp hk
  rw [← hmore, getElem?_append_left hlt, hk]

theorem Consistent.mono (hc : s.Consistent t) (h : t.Extends t') : s.Consistent t' where
  nodup := hc.nodup
  inverse := hc.inverse
  named := by
    intro id k hid
    obtain ⟨key, hk, hname⟩ := hc.named id k hid
    exact ⟨key, hk, hname.mono h⟩

theorem internKey_grows (s : DB) (key : KeyType) : s.keyTable <+: (s.internKey key).2.keyTable := by
  unfold internKey
  by_cases hkey : key ∈ s.keyTable
  · simp [hkey]
  · simp [hkey]

theorem internKey_getElem? (s : DB) (key : KeyType) :
    (s.internKey key).2.keyTable[(s.internKey key).1]? = some key := by
  unfold internKey
  by_cases hkey : key ∈ s.keyTable
  · rw [if_pos hkey]
    exact getElem?_idxOf hkey
  · rw [if_neg hkey, idxOf_eq_length hkey]
    simp

theorem Consistent.internKey (hc : s.Consistent t) (key : KeyType) : (s.internKey key).2.Consistent t := by
  have hcaches : (s.internKey key).2.engineKeyIDs = s.engineKeyIDs ∧
      (s.internKey key).2.dbKeyIDs = s.dbKeyIDs := by
    unfold DB.internKey
    by_cases hkey : key ∈ s.keyTable
    · simp [hkey]
    · simp [hkey]
  constructor
  · unfold DB.internKey
    by_cases hkey : key ∈ s.keyTable
    · rw [if_pos hkey]
      exact hc.nodup
    · rw [if_neg hkey]
      exact nodup_append.mpr ⟨hc.nodup, nodup_singleton _, by
        intro a ha b hb
        rw [mem_singleton.mp hb]
        exact ne_of_mem_of_not_mem ha hkey⟩
  · rw [hcaches.1, hcaches.2]
    exact hc.inverse
  · rw [hcaches.2]
    intro id k hid
    obtain ⟨key', hk, hname⟩ := hc.named id k hid
    exact ⟨key', getElem?_of_grown (internKey_grows s key) hk, hname⟩

/-- Caching an id of the key keeps the caches inverse to each other: any older entry for the id or the key id
    is the same one. -/
theorem Consistent.cacheMapping (hc : s.Consistent t) (hwf : t.WellFormed) (hk : s.keyTable[k]? = some key)
    (hname : t.Named id key) : (s.cacheMapping id k).Consistent t := by
  have hid : ∀ id', s.dbKeyIDs k = some id' → id' = id := by
    intro id' h
    obtain ⟨key', hk', hname'⟩ := hc.named id' k h
    obtain rfl : key' = key := Option.some.inj (hk'.symm.trans hk)
    exact hwf.id_unique hname' hname
  have hkeyID : ∀ k', s.dbKeyIDs k' = some id → k' = k := by
    intro k' h
    obtain ⟨key', hk', hname'⟩ := hc.named id k' h
    obtain rfl := hwf.name_unique hname' hname
    obtain ⟨hlt', hget'⟩ := List.getElem?_eq_some_iff.mp hk'
    obtain ⟨hlt, hget⟩ := List.getElem?_eq_some_iff.mp hk
    exact (hc.nodup.getElem_inj_iff).mp (hget'.trans hget.symm)
  constructor
  · exact hc.nodup
  · intro id' k'
    show update s.engineKeyIDs id (some k) id' = some k' ↔
      update s.dbKeyIDs k (some id) k' = some id'
    by_cases h : id' = id <;> by_cases h' : k' = k
    · simp [h, h']
    · subst h
      rw [update_self, update_of_ne h']
      constructor
      · intro heq
        exact absurd (Option.some.inj heq).symm h'
      · intro heq
        exact absurd (hkeyID k' heq) h'
    · subst h'
      rw [update_of_ne h, update_self, hc.inverse]
      constructor
      · intro heq
        exact absurd (hid id' heq) h
      · intro heq
        exact absurd (Option.some.inj heq).symm h
    · rw [update_of_ne h, update_of_ne h']
      exact hc.inverse id' k'
  · intro id' k' h
    change update s.dbKeyIDs k (some id) k' = some id' at h
    by_cases h' : k' = k
    · subst h'
      rw [update_self] at h
      cases h
      exact ⟨key, hk, hname⟩
    · rw [update_of_ne h'] at h
      exact hc.named id' k' h

/-! ### Writing -/

/-- What writing a key may do: names are added, everything else stays. -/
structure Grows (t : Tables) (s : DB) (t' : Tables) (s' : DB) : Prop where
  wellFormed : t'.WellFormed
  consistent : s'.Consistent t'
  extended : t.Extends t'
  ruleResults : t'.ruleResults = t.ruleResults
  keyTable : s'.keyTable = s.keyTable

theorem Grows.trans {t'' : Tables} {s'' : DB} (h : Grows t s t' s') (h' : Grows t' s' t'' s'') :
    Grows t s t'' s'' where
  wellFormed := h'.wellFormed
  consistent := h'.consistent
  extended := fun _ hrow => h'.extended (h.extended hrow)
  ruleResults := h'.ruleResults.trans h.ruleResults
  keyTable := h'.keyTable.trans h.keyTable

theorem getKeyIDFromDB_spec (hwf : t.WellFormed) (hk : s.keyTable[k]? = some key) :
    (s.getKeyIDFromDB t k).2.WellFormed ∧ (s.getKeyIDFromDB t k).2.Named (s.getKeyIDFromDB t k).1 key ∧
      t.Extends (s.getKeyIDFromDB t k).2 ∧ (s.getKeyIDFromDB t k).2.ruleResults = t.ruleResults := by
  unfold getKeyIDFromDB
  rw [getKeyForID_of hk]
  dsimp only
  cases hfind : t.findKeyIDForKey key with
  | some id =>
    exact ⟨hwf, hwf.findKeyIDForKey.mp hfind, fun _ h => h, rfl⟩
  | none =>
    refine ⟨hwf.insertIntoKeys hfind, ?_, ?_, rfl⟩
    · exact mem_append.mpr (.inr (mem_singleton.mpr rfl))
    · intro row hrow
      exact mem_append.mpr (.inl hrow)

/-- `getKeyID` gives the id of the key in `key_names`, whether it is cached, stored or new. -/
theorem getKeyID_spec (hwf : t.WellFormed) (hc : s.Consistent t) (hk : s.keyTable[k]? = some key) :
    Grows t s (s.getKeyID t k).2.1 (s.getKeyID t k).2.2 ∧ (s.getKeyID t k).2.1.Named (s.getKeyID t k).1 key := by
  unfold getKeyID
  cases hcached : s.dbKeyIDs k with
  | some id =>
    obtain ⟨key', hk', hname⟩ := hc.named id k hcached
    obtain rfl : key' = key := Option.some.inj (hk'.symm.trans hk)
    exact ⟨⟨hwf, hc, fun _ h => h, rfl, rfl⟩, hname⟩
  | none =>
    obtain ⟨hwf', hname, hext, hres⟩ := getKeyIDFromDB_spec hwf hk
    have hpos : (s.getKeyIDFromDB t k).1 ≠ 0 := hwf'.pos _ hname
    dsimp only
    rw [if_pos hpos]
    exact ⟨⟨hwf', (hc.mono hext).cacheMapping hwf' hk hname, hext, hres, rfl⟩, hname⟩

theorem writeDependencies_spec (hwf : t.WellFormed) (hc : s.Consistent t)
    (dependencies : List (KeyIDAndFlags KeyID)) (hvalid : ∀ d ∈ dependencies, d.keyID < s.keyTable.length) :
    Grows t s (s.writeDependencies t dependencies).2.1 (s.writeDependencies t dependencies).2.2 ∧
      (s.writeDependencies t dependencies).2.1.Blob (s.writeDependencies t dependencies).1
        (dependencies.map (fun d => ⟨s.getKeyForID d.keyID, d.orderOnly, d.singleUse⟩)) := by
  induction dependencies generalizing t s with
  | nil => exact ⟨⟨hwf, hc, fun _ h => h, rfl, rfl⟩, .nil⟩
  | cons d dependencies ih =>
    have hlt := hvalid d mem_cons_self
    have hk : s.keyTable[d.keyID]? = some s.keyTable[d.keyID] := getElem?_eq_getElem hlt
    obtain ⟨hgrows, hname⟩ := getKeyID_spec hwf hc hk
    have hvalid' : ∀ e ∈ dependencies, e.keyID < (s.getKeyID t d.keyID).2.2.keyTable.length := by
      intro e he
      rw [hgrows.keyTable]
      exact hvalid e (mem_cons_of_mem d he)
    obtain ⟨hgrows', hblob⟩ := ih hgrows.wellFormed hgrows.consistent hvalid'
    refine ⟨hgrows.trans hgrows', ?_⟩
    -- the names that were there stay, so the first dependency keeps its id
    have hkeys : (s.getKeyID t d.keyID).2.2.getKeyForID = s.getKeyForID := by
      funext keyID
      unfold getKeyForID
      rw [hgrows.keyTable]
    rw [hkeys] at hblob
    have hname' := hname.mono hgrows'.extended
    rw [← getKeyForID_of hk] at hname'
    exact .cons (d := ⟨s.getKeyForID d.keyID, d.orderOnly, d.singleUse⟩) hname' hblob

/-- Names are only added, whatever the state. -/
theorem extends_getKeyID (t : Tables) (s : DB) (k : KeyID) : t.Extends (s.getKeyID t k).2.1 := by
  unfold getKeyID getKeyIDFromDB
  intro row hrow
  cases s.dbKeyIDs k with
  | some id => exact hrow
  | none =>
    dsimp only
    cases t.findKeyIDForKey (s.getKeyForID k) with
    | some id => exact hrow
    | none => exact mem_append.mpr (.inl hrow)

theorem extends_writeDependencies (t : Tables) (s : DB) (dependencies : List (KeyIDAndFlags KeyID)) :
    t.Extends (s.writeDependencies t dependencies).2.1 := by
  induction dependencies generalizing t s with
  | nil => exact fun _ hrow => hrow
  | cons d dependencies ih => exact fun _ hrow => ih _ _ (extends_getKeyID t s d.keyID hrow)

theorem extends_setRuleResult (t : Tables) (s : DB) (k : KeyID) (result : StoredResult KeyID) :
    t.Extends (s.setRuleResult t k result).1 :=
  fun _ hrow => extends_writeDependencies _ _ _ (extends_getKeyID t s k hrow)

variable {store : Store} {es : List (KeyIDAndFlags KeyType)}

/-- **`setRuleResult` replaces the result of its key.** -/
theorem setRuleResult_spec (hwf : t.WellFormed) (hc : s.Consistent t) (hh : t.Holds store)
    (result : StoredResult KeyID) (hlt : k < s.keyTable.length)
    (hvalid : ∀ d ∈ result.dependencies, d.keyID < s.keyTable.length) :
    (s.setRuleResult t k result).1.WellFormed ∧
      (s.setRuleResult t k result).1.Holds
        (Function.update store (s.getKeyForID k) (some (s.resolve result))) ∧
      (s.setRuleResult t k result).2.Consistent (s.setRuleResult t k result).1 := by
  have hk : s.keyTable[k]? = some s.keyTable[k] := getElem?_eq_getElem hlt
  obtain ⟨hgrows, hname⟩ := getKeyID_spec hwf hc hk
  have hvalid' : ∀ d ∈ result.dependencies, d.keyID < (s.getKeyID t k).2.2.keyTable.length := by
    rw [hgrows.keyTable]
    exact hvalid
  obtain ⟨hgrows', hblob⟩ := writeDependencies_spec hgrows.wellFormed hgrows.consistent _ hvalid'
  have hall := hgrows.trans hgrows'
  have hh' := hh.mono hall.wellFormed hall.extended hall.ruleResults
  have hkeys : (s.getKeyID t k).2.2.getKeyForID = s.getKeyForID := by
    funext keyID
    unfold getKeyForID
    rw [hgrows.keyTable]
  rw [hkeys] at hblob
  have hname' := hname.mono hgrows'.extended
  rw [← getKeyForID_of hk] at hname'
  obtain ⟨hwf'', hh''⟩ := hh'.insertIntoRuleResults hall.wellFormed
    { keyID := _, value := _, signature := _, builtAt := _, computedAt := _, startTime := _, endTime := _,
      dependencies := _ } (r := s.resolve result) hname' ⟨rfl, rfl, rfl, rfl, rfl, rfl, hblob⟩
  exact ⟨hwf'', hh'', hall.consistent.mono (fun _ h => h)⟩

/-! ### Reading -/

/-- What reading may do: keys are interned and ids cached. -/
structure Reads (t : Tables) (s s' : DB) : Prop where
  consistent : s'.Consistent t
  keyTable : s.keyTable <+: s'.keyTable

theorem Reads.trans {s'' : DB} (h : Reads t s s') (h' : Reads t s' s'') : Reads t s s'' :=
  ⟨h'.consistent, h.keyTable.trans h'.keyTable⟩

/-- The key ids stand for these keys, with the same flags. -/
def Resolves (s : DB) (ds : List (KeyIDAndFlags KeyID)) (es : List (KeyIDAndFlags KeyType)) : Prop :=
  List.Forall₂ (fun d e => s.keyTable[d.keyID]? = some e.keyID ∧ d.orderOnly = e.orderOnly ∧
    d.singleUse = e.singleUse) ds es

theorem Resolves.mono {ds : List (KeyIDAndFlags KeyID)} (h : s.Resolves ds es) (hgrown : s.keyTable <+: s'.keyTable) :
    s'.Resolves ds es := by
  refine List.Forall₂.imp ?_ h
  rintro d e ⟨hk, hflags⟩
  exact ⟨getElem?_of_grown hgrown hk, hflags⟩

theorem Resolves.map_eq {ds : List (KeyIDAndFlags KeyID)} (h : s.Resolves ds es) :
    ds.map (fun d => (⟨s.getKeyForID d.keyID, d.orderOnly, d.singleUse⟩ : KeyIDAndFlags KeyType)) = es := by
  induction h with
  | nil => rfl
  | cons hd _ ih =>
    obtain ⟨hk, horder, hsingle⟩ := hd
    rw [map_cons, ih, getKeyForID_of hk, horder, hsingle]

section

variable (hwf : t.WellFormed)
include hwf

/-- `getKeyIDForID` gives the key id of the key, whether it is cached, interned or new. -/
theorem getKeyIDForID_spec (hc : s.Consistent t) (hname : t.Named id key) :
    ∃ k s', s.getKeyIDForID t id = (.ok k, s') ∧ Reads t s s' ∧ s'.keyTable[k]? = some key := by
  unfold getKeyIDForID
  cases hcached : s.engineKeyIDs id with
  | some k =>
    obtain ⟨key', hk, hname'⟩ := hc.named id k ((hc.inverse id k).mp hcached)
    obtain rfl := hwf.name_unique hname' hname
    exact ⟨k, s, rfl, ⟨hc, prefix_refl _⟩, hk⟩
  | none =>
    rw [hwf.findKeyNameForKeyID hname]
    have hk := internKey_getElem? s key
    exact ⟨_, _, rfl, ⟨(hc.internKey key).cacheMapping hwf hk hname, internKey_grows s key⟩, hk⟩

/-- The stored dependencies are read back in order, with their flags. -/
theorem readDependencies_spec (hbounded : t.Bounded) (rowID : DBKeyID) {bytes : List UInt8}
    (hblob : t.Blob bytes es) (hc : s.Consistent t) :
    ∃ ds s', readDependencies t rowID s es.length bytes = (.ok ds, s') ∧ Reads t s s' ∧ s'.Resolves ds es := by
  induction hblob generalizing s with
  | nil => exact ⟨[], s, rfl, ⟨hc, prefix_refl _⟩, .nil⟩
  | @cons id e bytes es hname _ ih =>
    obtain ⟨hid, horder, hsingle⟩ := unpackDependency (hbounded _ hname) e.orderOnly e.singleUse
    obtain ⟨k, s₁, hget, hreads, hk⟩ := getKeyIDForID_spec hwf hc hname
    obtain ⟨ds, s₂, hrest, hreads', hresolves⟩ := ih hreads.consistent
    refine ⟨⟨k, e.orderOnly, e.singleUse⟩ :: ds, s₂, ?_, hreads.trans hreads', ?_⟩
    · rw [length_cons, readDependencies, run_decode]
      dsimp only
      rw [hid, hget]
      dsimp only
      rw [hrest]
      dsimp only
      rw [horder, hsingle]
    · exact .cons ⟨getElem?_of_grown hreads'.keyTable hk, rfl, rfl⟩ hresolves

theorem readRow_spec (hbounded : t.Bounded) (hc : s.Consistent t) {row : RuleResult}
    {r : StoredResult KeyType} (hr : t.Represents row r) :
    ∃ result s', s.readRow t row = (.ok result, s') ∧ Reads t s s' ∧
      ∀ s'' : DB, s'.keyTable <+: s''.keyTable → s''.resolve result = r := by
  have hlength := hr.dependencies.length
  have hcount : row.dependencies.length / 8 = r.dependencies.length := by omega
  obtain ⟨ds, s', hread, hreads, hresolves⟩ :=
    readDependencies_spec hwf hbounded row.keyID hr.dependencies hc
  unfold readRow
  dsimp only
  rw [hcount, if_neg (not_not_intro hlength), hread]
  refine ⟨_, s', rfl, hreads, ?_⟩
  intro s'' hgrown
  have hdeps := (hresolves.mono hgrown).map_eq
  unfold resolve StoredResult.map
  dsimp only
  rw [hdeps, hr.value, hr.signature, hr.builtAt, hr.computedAt, hr.startTime, hr.endTime]
  simp

/-- On either path it is the row of the key that is found. -/
theorem findRow_spec (hc : s.Consistent t) (hk : s.keyTable[k]? = some key) :
    (s.findRow t k key).map Prod.fst = t.findRuleResult key ∧
      ∀ row s', s.findRow t k key = some (row, s') → Reads t s s' := by
  unfold findRow
  cases hcached : s.dbKeyIDs k with
  | some id =>
    obtain ⟨key', hk', hname⟩ := hc.named id k hcached
    obtain rfl : key' = key := Option.some.inj (hk'.symm.trans hk)
    constructor
    · rw [Option.map_map, ← hwf.paths_agree hname]
      exact map_id'
    · intro row s' heq
      obtain ⟨row', -, hpair⟩ := map_eq_some_iff.mp heq
      cases hpair
      exact ⟨hc, prefix_refl _⟩
  | none =>
    constructor
    · rw [Option.map_map]
      exact map_id'
    · intro row s' heq
      obtain ⟨row', hfind, hpair⟩ := map_eq_some_iff.mp heq
      cases hpair
      exact ⟨hc.cacheMapping hwf hk (hwf.findRuleResult.mp hfind).2, prefix_refl _⟩

/-- **`lookupRuleResult` returns the result of the store**, on either path. -/
theorem lookupRuleResult_spec (hbounded : t.Bounded) (hc : s.Consistent t) (hh : t.Holds store)
    (hk : s.keyTable[k]? = some key) :
    ∃ found s', s.lookupRuleResult t k key = (.ok found, s') ∧ Reads t s s' ∧
      found.map s'.resolve = store key := by
  obtain ⟨hrow, hreads⟩ := findRow_spec hwf hc hk
  unfold lookupRuleResult
  cases hcase : s.findRow t k key with
  | none =>
    refine ⟨none, s, rfl, ⟨hc, prefix_refl _⟩, ?_⟩
    -- no row means no result
    cases hstore : store key with
    | none => rfl
    | some r =>
      obtain ⟨row, hmem, hname⟩ := hh.complete key r hstore
      rw [hcase, hwf.findRuleResult.mpr ⟨hmem, hname⟩] at hrow
      cases hrow
  | some entry =>
    obtain ⟨row, s₁⟩ := entry
    rw [hcase] at hrow
    obtain ⟨hmem, hname⟩ := hwf.findRuleResult.mp hrow.symm
    obtain ⟨r, hstore, hr⟩ := hh.sound row hmem key hname
    have hreads₁ := hreads row s₁ hcase
    obtain ⟨result, s', hread, hreads', hresolve⟩ := readRow_spec hwf hbounded hreads₁.consistent hr
    refine ⟨some result, s', ?_, hreads₁.trans hreads', ?_⟩
    · dsimp only
      rw [hread]
    · rw [hstore, map_some, hresolve s' (prefix_refl _)]

/-- The bulk reader gives the result of the store for each row it reads. -/
theorem readKeysWithResult_spec (hbounded : t.Bounded) (hh : t.Holds store)
    (rows : List (RuleResult × KeyName)) (hrows : rows ⊆ t.join) (hc : s.Consistent t) :
    ∃ results s', s.readKeysWithResult t rows = (.ok results, s') ∧ Reads t s s' ∧
      results.map Prod.fst = rows.map (fun entry => entry.2.key) ∧
      ∀ entry ∈ results, ∀ s'' : DB, s'.keyTable <+: s''.keyTable →
        store entry.1 = some (s''.resolve entry.2) := by
  induction rows generalizing s with
  | nil =>
    refine ⟨[], s, rfl, ⟨hc, prefix_refl _⟩, rfl, ?_⟩
    intro entry hmem
    cases hmem
  | cons entry rows ih =>
    obtain ⟨row, name⟩ := entry
    obtain ⟨hmem, hname, hid⟩ := Tables.mem_join.mp (hrows mem_cons_self)
    have hnamed : t.Named row.keyID name.key := by
      rw [← hid]
      exact hname
    obtain ⟨r, hstore, hr⟩ := hh.sound row hmem name.key hnamed
    have hc₁ := (hc.internKey name.key).cacheMapping hwf (internKey_getElem? s name.key) hnamed
    obtain ⟨result, s₁, hread, hreads, hresolve⟩ := readRow_spec hwf hbounded hc₁ hr
    obtain ⟨results, s', hrest, hreads', hkeys, hresults⟩ :=
      ih (fun _ h => hrows (mem_cons_of_mem _ h)) hreads.consistent
    have hgrown : s.keyTable <+: s₁.keyTable := (internKey_grows s name.key).trans hreads.keyTable
    refine ⟨(name.key, result) :: results, s', ?_, ⟨hreads'.consistent, hgrown.trans hreads'.keyTable⟩, ?_, ?_⟩
    · rw [readKeysWithResult, hread]
      dsimp only
      rw [hrest]
    · rw [map_cons, map_cons, hkeys]
    · intro entry hentry s'' hgrown'
      rcases mem_cons.mp hentry with rfl | hentry
      · rw [hresolve s'' (hreads'.keyTable.trans hgrown')]
        exact hstore
      · exact hresults entry hentry s'' hgrown'

/-- **`getKeysWithResult` returns each key that has a result once, with its result.** -/
theorem getKeysWithResult_spec (hbounded : t.Bounded) (hc : s.Consistent t) (hh : t.Holds store) :
    ∃ results s', s.getKeysWithResult t = (.ok results, s') ∧ Reads t s s' ∧
      (results.map Prod.fst).Nodup ∧
      ∀ key r, store key = some r ↔ ∃ result, (key, result) ∈ results ∧ s'.resolve result = r := by
  obtain ⟨results, s', hread, hreads, hkeys, hresults⟩ :=
    readKeysWithResult_spec hwf hbounded hh t.join (fun _ h => h) hc
  refine ⟨results, s', hread, hreads, ?_, ?_⟩
  · rw [hkeys]
    exact hwf.join_keys_nodup
  · intro key r
    constructor
    · intro hstore
      obtain ⟨row, hmem, hname⟩ := hh.complete key r hstore
      have hkey : key ∈ results.map Prod.fst := by
        rw [hkeys]
        exact mem_map.mpr ⟨(row, ⟨row.keyID, key⟩), Tables.mem_join.mpr ⟨hmem, hname, rfl⟩, rfl⟩
      obtain ⟨entry, hentry, rfl⟩ := mem_map.mp hkey
      have hresult := hresults entry hentry s' (prefix_refl _)
      exact ⟨entry.2, hentry, Option.some.inj (hresult.symm.trans hstore)⟩
    · rintro ⟨result, hentry, rfl⟩
      exact hresults (key, result) hentry s' (prefix_refl _)

end

end DB

/-! ## Whole runs -/

namespace World

/-- The tables hold the last results, and every database object is consistent with them. -/
structure Inv (w : World) (store : Store) : Prop where
  wellFormed : w.tables.WellFormed
  holds : w.tables.Holds store
  consistent : ∀ engine, (w.dbs engine).Consistent w.tables

variable {w : World} {store : Store}

theorem inv_init : Inv {} (fun _ => none) where
  wellFormed := ⟨nodup_nil, nodup_nil, by simp, nodup_nil⟩
  holds := ⟨by simp, by simp, by simp⟩
  consistent := by
    intro engine
    exact ⟨nodup_nil, by simp, by simp⟩

/-- One object changes, and the tables grow. -/
theorem Inv.of_db (h : w.Inv store) {t' : Tables} {store' : Store} {s' : DB} (engine : Nat) (hwf : t'.WellFormed)
    (hh : t'.Holds store') (hext : w.tables.Extends t') (hs : s'.Consistent t') :
    Inv { w.setDB engine s' with tables := t' } store' := by
  refine ⟨hwf, hh, ?_⟩
  intro engine'
  show (update w.dbs engine s' engine').Consistent t'
  by_cases heq : engine' = engine
  · subst heq
    rw [update_self]
    exact hs
  · rw [update_of_ne heq]
    exact (h.consistent engine').mono hext

theorem extends_step (w : World) (op : Op) : w.tables.Extends (w.step op).tables := by
  cases op with
  | setRuleResult engine k result => exact DB.extends_setRuleResult _ _ _ _
  | getKeyID engine key | lookupRuleResult engine k key | getKeysWithResult engine => exact fun _ hrow => hrow

theorem bounded_of_run (ops : List Op) (w : World) (h : (w.run ops).tables.Bounded) : w.tables.Bounded := by
  induction ops generalizing w with
  | nil => exact h
  | cons op ops ih =>
    have hstep := ih (w.step op) h
    intro row hrow
    exact hstep row (extends_step w op hrow)

/-- One call keeps the invariant. -/
theorem Inv.step (h : w.Inv store) {op : Op} (hvalid : w.Valid op) (hbounded : w.tables.Bounded) :
    (w.step op).Inv (store.step w op) := by
  cases op with
  | getKeyID engine key =>
    exact h.of_db engine h.wellFormed h.holds (fun _ hrow => hrow) ((h.consistent engine).internKey key)
  | setRuleResult engine k result =>
    obtain ⟨hwf, hh, hs⟩ :=
      DB.setRuleResult_spec h.wellFormed (h.consistent engine) h.holds result hvalid.1 hvalid.2
    exact h.of_db engine hwf hh (DB.extends_setRuleResult _ _ _ _) hs
  | lookupRuleResult engine k key =>
    obtain ⟨found, s', heq, hreads, -⟩ :=
      DB.lookupRuleResult_spec h.wellFormed hbounded (h.consistent engine) h.holds hvalid
    refine h.of_db engine h.wellFormed h.holds (fun _ hrow => hrow) ?_
    rw [heq]
    exact hreads.consistent
  | getKeysWithResult engine =>
    obtain ⟨results, s', heq, hreads, -, -⟩ :=
      DB.getKeysWithResult_spec h.wellFormed hbounded (h.consistent engine) h.holds
    refine h.of_db engine h.wellFormed h.holds (fun _ hrow => hrow) ?_
    rw [heq]
    exact hreads.consistent

/-- A whole run keeps the invariant, if the row ids it ends with are below 2^62. -/
theorem Inv.run (h : w.Inv store) (ops : List Op) (hvalid : w.ValidRun ops)
    (hbounded : (w.run ops).tables.Bounded) : (w.run ops).Inv (store.run w ops) := by
  induction ops generalizing w store with
  | nil => exact h
  | cons op ops ih =>
    obtain ⟨hop, hrest⟩ := hvalid
    exact ih (h.step hop (bounded_of_run (op :: ops) w hbounded)) hrest hbounded

end World

/-- **The database returns the last results.** After any run of calls by any number of engines, for the
    database object of any engine: the caches are inverse to each other; `lookupRuleResult` returns the last
    result set for the key, or nothing if none was set; a cached id and the join find the same row; and
    `getKeysWithResult` returns every key with a result once, with its last result. -/
theorem buildDB_roundTrip (ops : List Op) (hvalid : World.ValidRun {} ops)
    (hids : ∀ row ∈ (World.run {} ops).tables.keyNames, row.id < 2 ^ 62) (engine : Nat) :
    let t := (World.run {} ops).tables
    let s := (World.run {} ops).dbs engine
    let last := Store.run {} (fun _ => none) ops
    (∀ id k, s.engineKeyIDs id = some k ↔ s.dbKeyIDs k = some id) ∧
    (∀ k key, s.keyTable[k]? = some key →
      (∃ found s', s.lookupRuleResult t k key = (.ok found, s') ∧ found.map s'.resolve = last key) ∧
      (∀ id, s.dbKeyIDs k = some id → t.fastFindRuleResult id = t.findRuleResult key)) ∧
    (∃ results s', s.getKeysWithResult t = (.ok results, s') ∧ (results.map Prod.fst).Nodup ∧
      ∀ key r, last key = some r ↔ ∃ result, (key, result) ∈ results ∧ s'.resolve result = r) := by
  have hinv := World.inv_init.run ops hvalid hids
  have hc := hinv.consistent engine
  refine ⟨hc.inverse, ?_, ?_⟩
  · intro k key hk
    constructor
    · obtain ⟨found, s', heq, -, hfound⟩ := DB.lookupRuleResult_spec hinv.wellFormed hids hc hinv.holds hk
      exact ⟨found, s', heq, hfound⟩
    · intro id hid
      obtain ⟨key', hk', hname⟩ := hc.named id k hid
      obtain rfl : key' = key := Option.some.inj (hk'.symm.trans hk)
      exact hinv.wellFormed.paths_agree hname
  · obtain ⟨results, s', heq, -, hnodup, hresults⟩ :=
      DB.getKeysWithResult_spec hinv.wellFormed hids hc hinv.holds
    exact ⟨results, s', heq, hnodup, hresults⟩

/-- One engine interns `a` and `b` and sets a result of `a`; another one interns them in the other order. -/
def twoEngines : List Op :=
  [.getKeyID 0 [97], .getKeyID 0 [98],
    .setRuleResult 0 0 { value := [1], builtAt := 5, dependencies := [⟨1, true, false⟩, ⟨0, false, true⟩] },
    .getKeyID 1 [98], .getKeyID 1 [97]]

/-- The second engine gets the result with the keys of the first. -/
theorem buildDB_roundTrip_twoEngines :
    ∃ found s', ((World.run {} twoEngines).dbs 1).lookupRuleResult (World.run {} twoEngines).tables 1 [97] =
        (.ok found, s') ∧
      found.map s'.resolve =
        some { value := [1], builtAt := 5, dependencies := [⟨[98], true, false⟩, ⟨[97], false, true⟩] } := by
  have hvalid : World.ValidRun {} twoEngines :=
    ⟨trivial, trivial, ⟨by decide, by decide⟩, trivial, trivial, trivial⟩
  obtain ⟨-, hlookup, -⟩ := buildDB_roundTrip twoEngines hvalid (by decide) 1
  obtain ⟨⟨found, s', heq, hfound⟩, -⟩ := hlookup 1 [97] (by decide)
  exact ⟨found, s', heq, hfound.trans (by decide)⟩

end SQLiteBuildDB

end Builra
