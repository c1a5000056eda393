import Builra.Util.HeadermapGrowth
import Builra.Util.HeadermapRoundTrip

namespace Builra

open List

/-!
# `Util.HeadermapInserts` — what a headermap holds after its inserts

A sequence of inserts either never grows the table, which then is a case-insensitive map up to the values whose
only separator is at the start, or it grows the table and counts too many entries from then on.
-/

namespace Headermap

open LinearProbing

/-- Insert one entry after the other. -/
def insertAll (hmap : Headermap) (calls : List Call) : Option Headermap :=
  calls.foldlM (fun hmap call => hmap.insert call.key call.value call.replace) hmap

variable (capacity : Nat)

variable (calls : List Call)

/-- The load factor of 2/3 leaves room for every call. -/
def NeverGrows : Prop :=
  ∀ earlier call later, calls = earlier ++ call :: later →
    3 * ((effective earlier).length + 1) ≤ 2 * roundUpToPowerOfTwo capacity

/-- The values are not split at a separator that is only at the start. -/
def ValuesSplit : Prop :=
  ∀ pair ∈ effective calls, ¬ ∃ rest, pair.2 = Path.pathSeparatorUTF8 :: rest ∧ Path.pathSeparatorUTF8 ∉ rest

/-- The offsets of the serialized headermap fit into 32 bits. -/
def OffsetsFit : Prop :=
  headerSize + roundUpToPowerOfTwo capacity * bucketStride + (stringTableOf calls).length < 2 ^ 32 ∧
    (stringTableOf calls).length < 2 ^ 31

/-- **The contract of a headermap**: every insert finds a bucket, the pairs are those that took effect, the
    entries are the used buckets, some bucket is free, and the bytes give the same pairs. -/
def MapsCalls : Prop :=
  ∃ hmap pairs, (empty capacity).insertAll calls = some hmap ∧ hmap.pairs = some pairs ∧
    pairs.Perm (effective calls) ∧ (pairs.map foldedKey).Nodup ∧
    hmap.numEntries = used hmap.buckets ∧ hmap.numEntries < hmap.buckets.length ∧
    ∃ bytes hmap', hmap.toBytes = some bytes ∧ load bytes = some (.ok hmap') ∧ hmap'.pairs = some pairs

variable {capacity : Nat} {calls : List Call} {call : Call} {hmap hmap' : Headermap}

theorem insertAll_append (hmap : Headermap) (calls : List Call) (call : Call) :
    hmap.insertAll (calls ++ [call]) =
      (hmap.insertAll calls).bind (fun hmap => hmap.insert call.key call.value call.replace) := by
  unfold insertAll
  rw [foldlM_append]
  refine congrArg _ (funext fun hmap => ?_)
  rw [foldlM_cons]
  exact bind_pure _

/-! ## The pairs that took effect -/

/-- Storing an entry keeps the keys distinct. -/
theorem nodup_upsert {ε κ : Type} [DecidableEq κ] {key : ε → κ} {l : List ε} (h : (l.map key).Nodup)
    (replace : Bool) (e : ε) : ((upsert key replace l e).map key).Nodup := by
  unfold upsert
  split_ifs with hany hreplace
  · have hkeys : (l.map (fun x => if key x = key e then e else x)).map key = l.map key := by
      rw [map_map]
      refine map_congr_left (fun x _ => ?_)
      rw [Function.comp_apply]
      split_ifs with hx
      · exact hx.symm
      · rfl
    rw [hkeys]
    exact h
  · exact h
  · rw [map_append, map_singleton]
    refine nodup_append.mpr ⟨h, nodup_singleton _, fun k hk k' hk' heq => hany ?_⟩
    obtain ⟨x, hx, rfl⟩ := mem_map.mp hk
    obtain rfl := mem_singleton.mp hk'
    exact any_eq_true.mpr ⟨x, hx, decide_eq_true heq⟩

theorem nodup_effective (calls : List Call) : ((effective calls).map foldedKey).Nodup := by
  induction calls using List.reverseRecOn with
  | nil => exact nodup_nil
  | append_singleton calls call ih =>
    rw [effective_append]
    exact nodup_upsert ih _ _

/-- The pairs come back as they were inserted if all their values do. -/
theorem perm_stored_iff (calls : List Call) :
    ((effective calls).map (fun pair => (pair.1, stored pair.2))).Perm (effective calls) ↔ ValuesSplit calls := by
  constructor
  · intro hperm pair hpair
    have hmem : (pair.1, stored pair.2) ∈ effective calls :=
      hperm.mem_iff.mp (mem_map_of_mem hpair)
    -- the keys are distinct, so the pair with this key is the one that was inserted
    have heq : (pair.1, stored pair.2) = pair :=
      inj_on_of_nodup_map (nodup_effective calls) hmem hpair rfl
    exact (stored_eq_iff pair.2).mp (congrArg Prod.snd heq)
  · intro hsplit
    have hid : (effective calls).map (fun pair => (pair.1, stored pair.2)) = effective calls := by
      refine (map_congr_left (fun pair hpair => ?_)).trans (map_id _)
      rw [(stored_eq_iff pair.2).mpr (hsplit pair hpair)]
      rfl
    rw [hid]

/-! ## All inserts -/

theorem neverGrows_nil : NeverGrows capacity [] := by
  intro earlier call later h
  exact absurd h.symm (by simp)

theorem neverGrows_append :
    NeverGrows capacity (calls ++ [call]) ↔
      NeverGrows capacity calls ∧ 3 * ((effective calls).length + 1) ≤ 2 * roundUpToPowerOfTwo capacity := by
  constructor
  · intro h
    refine ⟨fun earlier c later heq => h earlier c (later ++ [call]) (by rw [heq]; simp), h calls call [] rfl⟩
  · rintro ⟨h, hlast⟩ earlier c later heq
    rcases eq_nil_or_concat later with rfl | ⟨later, c', rfl⟩
    · obtain ⟨rfl, -⟩ := append_inj' heq rfl
      exact hlast
    · rw [concat_eq_append, ← cons_append, ← append_assoc] at heq
      obtain ⟨rfl, -⟩ := append_inj' heq rfl
      exact h earlier c later rfl

theorem length_stringTableOf_append_le (calls : List Call) (call : Call) :
    (stringTableOf calls).length ≤ (stringTableOf (calls ++ [call])).length := by
  rw [stringTableOf, stringTableOf, names_append]
  exact length_tableOf_foldl_le _ _

/-- The entries are the used buckets. -/
theorem Holds.used_eq (h : Holds capacity calls hmap) : used hmap.buckets = hmap.numEntries := by
  obtain ⟨slots, hb, -, hperm⟩ := h.slots
  have hlen := hperm.length_eq
  rw [length_map] at hlen
  rw [h.numEntries, ← hlen]
  generalize hmap.buckets = buckets at hb
  unfold used
  clear hperm hlen
  induction hb with
  | nil => rfl
  | @cons bucket slot buckets slots hr hrest ih =>
    cases slot with
    | none =>
      rw [entries_none, countP_cons_of_neg (by rw [show bucket = {} from hr]; simp)]
      exact ih
    | some pair =>
      rw [entries_some, countP_cons_of_pos (by simpa using hr.1), length_cons, ih]

theorem Holds.lt (hpos : 0 < roundUpToPowerOfTwo capacity) (h : Holds capacity calls hmap) :
    hmap.numEntries < hmap.buckets.length := by
  have hload := h.load
  have hsize := h.size
  omega

/-- **What the inserts leave**: a table that holds them, or one that counts too many entries. -/
theorem insertAll_cases (hpos : 0 < capacity) (hlt : capacity < 2 ^ 63) (hv : ∀ call ∈ calls, call.Valid)
    (h : (empty capacity).insertAll calls = some hmap) :
    (NeverGrows capacity calls ∧ Holds capacity calls hmap) ∨
      (¬ NeverGrows capacity calls ∧ Overcounted hmap) := by
  obtain ⟨m, hm⟩ := roundUpToPowerOfTwo_eq hpos hlt
  induction calls using List.reverseRecOn generalizing hmap with
  | nil =>
    cases h
    exact .inl ⟨neverGrows_nil, holds_empty capacity⟩
  | append_singleton calls call ih =>
    rw [insertAll_append] at h
    obtain ⟨hmap₁, hbefore, hinsert⟩ := Option.bind_eq_some_iff.mp h
    have hvcall : call.Valid := hv call (by simp)
    rw [neverGrows_append]
    rcases ih (fun c hc => hv c (mem_append_left _ hc)) hbefore with ⟨hnever, hholds⟩ | ⟨hgrown, hover⟩
    · have hnum := hholds.numEntries
      have hsize := hholds.size
      by_cases hroom : 3 * ((effective calls).length + 1) ≤ 2 * roundUpToPowerOfTwo capacity
      · left
        rw [insert_eq, if_neg (by omega)] at hinsert
        exact ⟨⟨hnever, hroom⟩, hholds.place hvcall (hsize.trans hm) (by omega) hinsert⟩
      · right
        refine ⟨fun hboth => hroom hboth.2, ?_⟩
        have hfree : used hmap₁.buckets < hmap₁.buckets.length := by
          rw [hholds.used_eq]
          exact hholds.lt (hm ▸ Nat.two_pow_pos m)
        exact insert_overcounted_of_grow hfree (by omega) hinsert
    · exact .inr ⟨fun hboth => hgrown hboth.1, hover.insert hinsert⟩

/-- The inserts succeed while the table does not grow and its strings fit. -/
theorem insertAll_isSome (hpos : 0 < capacity) (hlt : capacity < 2 ^ 63) (hv : ∀ call ∈ calls, call.Valid)
    (hnever : NeverGrows capacity calls) (hsize : (stringTableOf calls).length < 2 ^ 31) :
    ((empty capacity).insertAll calls).isSome = true := by
  obtain ⟨m, hm⟩ := roundUpToPowerOfTwo_eq hpos hlt
  induction calls using List.reverseRecOn with
  | nil => rfl
  | append_singleton calls call ih =>
    obtain ⟨hnever₁, hroom⟩ := neverGrows_append.mp hnever
    have hv₁ : ∀ c ∈ calls, c.Valid := fun c hc => hv c (mem_append_left _ hc)
    have hsize₁ := (length_stringTableOf_append_le calls call).trans_lt hsize
    obtain ⟨hmap, hmap_eq⟩ := Option.isSome_iff_exists.mp (ih hv₁ hnever₁ hsize₁)
    rcases insertAll_cases hpos hlt hv₁ hmap_eq with ⟨-, hholds⟩ | ⟨hgrown, -⟩
    · have hnum := hholds.numEntries
      have hlen := hholds.size
      rw [insertAll_append, hmap_eq, Option.bind_some, insert_eq, if_neg (by omega)]
      exact hholds.place_isSome (hv call (by simp)) (hlen.trans hm) (by omega) hsize
    · exact absurd hnever₁ hgrown

/-- The bytes of a table that holds its calls. -/
theorem Holds.toBytes_isSome (hpos : 0 < roundUpToPowerOfTwo capacity) (h : Holds capacity calls hmap)
    (hfit : OffsetsFit capacity calls) : hmap.toBytes.isSome = true := by
  have hlt := h.lt hpos
  have hbound := hfit.1
  rw [← h.size] at hbound
  have hstride : hmap.buckets.length ≤ hmap.buckets.length * bucketStride := Nat.le_mul_of_pos_right _ (by decide)
  unfold Headermap.toBytes uint32
  rw [if_pos (by omega), if_pos (by omega), if_pos (by omega), h.maxValueLength]
  rfl

theorem Holds.inTable (h : Holds capacity calls hmap) :
    ∀ bucket ∈ hmap.buckets, InTable hmap.stringTable.length bucket := by
  obtain ⟨slots, hb, -, -⟩ := h.slots
  have htable : hmap.stringTable ≠ [] := by
    rw [h.strings.table]
    exact cons_ne_nil _ _
  intro bucket hbucket
  obtain ⟨i, hi, rfl⟩ := mem_iff_getElem.mp hbucket
  exact (hb.get hi (hb.length_eq ▸ hi)).inTable htable

/-- A table whose bytes can be read has offsets that fit. -/
theorem Holds.offsetsFit_iff {bytes : List UInt8} (hpos : 0 < roundUpToPowerOfTwo capacity)
    (h : Holds capacity calls hmap) (hbytes : hmap.toBytes = some bytes) :
    (∃ hmap', Headermap.load bytes = some (.ok hmap')) ↔ OffsetsFit capacity calls := by
  have hlength := length_toBytes hbytes
  rw [h.size, h.strings.table] at hlength
  rw [load_toBytes_iff hbytes h.strings h.inTable (h.lt hpos), hlength, h.strings.table]
  rfl

/-- **A headermap is a case-insensitive map** of valid calls exactly if it never grows, no value has its only
    separator at the start, and the offsets fit into 32 bits. -/
theorem mapsCalls_iff (hpos : 0 < capacity) (hlt : capacity < 2 ^ 63) (hv : ∀ call ∈ calls, call.Valid) :
    MapsCalls capacity calls ↔
      NeverGrows capacity calls ∧ ValuesSplit calls ∧ OffsetsFit capacity calls := by
  have hsize : 0 < roundUpToPowerOfTwo capacity := by
    obtain ⟨m, hm⟩ := roundUpToPowerOfTwo_eq hpos hlt
    exact hm ▸ Nat.two_pow_pos m
  constructor
  · rintro ⟨hmap, pairs, hrun, hpairs, hperm, -, hused, -, bytes, hmap', hbytes, hload, -⟩
    rcases insertAll_cases hpos hlt hv hrun with ⟨hnever, hholds⟩ | ⟨-, hover⟩
    · refine ⟨hnever, ?_, (hholds.offsetsFit_iff hsize hbytes).mp ⟨hmap', hload⟩⟩
      obtain ⟨slots, hb, -, hslots⟩ := hholds.slots
      cases (pairs_eq hb).symm.trans hpairs
      exact (perm_stored_iff calls).mp (hslots.symm.trans hperm)
    · exact absurd hused (Nat.ne_of_gt hover.surplus)
  · rintro ⟨hnever, hsplit, hfit⟩
    obtain ⟨hmap, hrun⟩ := Option.isSome_iff_exists.mp (insertAll_isSome hpos hlt hv hnever hfit.2)
    rcases insertAll_cases hpos hlt hv hrun with ⟨-, hholds⟩ | ⟨hgrown, -⟩
    · obtain ⟨slots, hb, -, hslots⟩ := hholds.slots
      have hperm : (entries slots).Perm (effective calls) := hslots.trans ((perm_stored_iff calls).mpr hsplit)
      have hnodup : ((entries slots).map foldedKey).Nodup := (hperm.map foldedKey).nodup_iff.mpr (nodup_effective calls)
      obtain ⟨bytes, hbytes⟩ := Option.isSome_iff_exists.mp (hholds.toBytes_isSome hsize hfit)
      have hlen : bytes.length < 2 ^ 32 ∧ hmap.stringTable.length < 2 ^ 31 :=
        (load_toBytes_iff hbytes hholds.strings hholds.inTable (hholds.lt hsize)).mp
          ((hholds.offsetsFit_iff hsize hbytes).mpr hfit)
      obtain ⟨hmap', hload, hbuckets, htable⟩ :=
        load_toBytes hbytes hholds.strings hholds.inTable (hholds.lt hsize) hlen.1 hlen.2
      have hpairs' : hmap'.pairs = some (entries slots) := by
        apply pairs_eq
        rw [hbuckets, htable]
        exact hb
      exact ⟨hmap, entries slots, hrun, pairs_eq hb, hperm, hnodup, hholds.used_eq.symm, hholds.lt hsize,
        bytes, hmap', hbytes, hload, hpairs'⟩
    · exact absurd hnever hgrown

/-- `ab.h` and `ba.h`, whose hashes collide, and both again in other cases, of which only the second replaces. -/
def collidingCalls : List Call :=
  [{ key := [97, 98, 46, 104], value := [47, 112, 47, 97] }, { key := [98, 97, 46, 104], value := [47, 112, 47, 98] },
    { key := [65, 66, 46, 72], value := [47, 113, 47, 97], replace := false },
    { key := [66, 65, 46, 104], value := [47, 113, 47, 98] }]

/-- Eight buckets hold the first value of `ab.h` and the second one of `ba.h`. -/
theorem mapsCalls_colliding : MapsCalls 8 collidingCalls ∧ (effective collidingCalls).map Prod.snd =
    [[47, 112, 47, 97], [47, 113, 47, 98]] := by
  refine ⟨(mapsCalls_iff (by decide) (by decide) ?_).mpr ⟨?_, ?_, ?_⟩, by decide⟩
  · intro call hcall
    simp only [collidingCalls, mem_cons, not_mem_nil, or_false] at hcall
    rcases hcall with rfl | rfl | rfl | rfl <;> exact ⟨by decide, by decide, by decide⟩
  · intro earlier call later heq
    have hall : ∀ n < collidingCalls.length, 3 * ((effective (collidingCalls.take n)).length + 1) ≤
        2 * roundUpToPowerOfTwo 8 := by decide
    have hlt := hall earlier.length (by rw [heq, length_append, length_cons]; omega)
    rwa [heq, take_left] at hlt
  · have hall : ∀ pair ∈ effective collidingCalls, Path.pathSeparatorUTF8 ∈ pair.2.tail := by decide
    rintro pair hpair ⟨rest, heq, hno⟩
    have hmem := hall pair hpair
    rw [heq] at hmem
    exact hno hmem
  · exact ⟨by decide, by decide⟩

/-- **A table for one entry grows at once**: of its two buckets one is used, but two entries are counted, and its
    own bytes are refused. -/
theorem not_mapsCalls_grown :
    ¬ MapsCalls 1 [{ key := [97, 46, 104], value := [47, 116, 109, 112, 47, 97, 46, 104] }] ∧
      ∃ hmap bytes, (empty 1).insertAll [{ key := [97, 46, 104], value := [47, 116, 109, 112, 47, 97, 46, 104] }] =
          some hmap ∧ hmap.numEntries = 2 ∧ used hmap.buckets = 1 ∧ hmap.toBytes = some bytes ∧
        load bytes = some (.error "invalid header (invalid entry count)") := by
  constructor
  · rintro ⟨hmap, pairs, hrun, -, -, -, hused, -⟩
    cases hrun
    exact absurd hused (by decide)
  · exact ⟨_, _, rfl, rfl, by decide, rfl, rfl⟩

end Headermap

end Builra
