import Builra.Util.Headermap

namespace Builra

open List Option

/-!
# `Util.HeadermapStrings` — the string table of a headermap

The string table is the empty string followed by the distinct non-empty strings, each ended by a NUL byte. An
index that was handed out stays the index of its string, and it is 0 for the empty string only.
-/

namespace Headermap

theorem tolower_eq_zero_iff {c : UInt8} : tolower c = 0 ↔ c = 0 := by
  unfold tolower
  split_ifs with hc
  · obtain ⟨hlow, hhigh⟩ := hc
    rw [UInt8.le_iff_toNat_le] at hlow hhigh
    rw [← UInt8.toNat_inj, ← UInt8.toNat_inj, UInt8.toNat_add]
    simp only [UInt8.reduceToNat] at *
    omega
  · rfl

/-! ## Strings in a table -/

/-- The string at an index. -/
def StringAt (stringTable : List UInt8) (index : Int) (s : List UInt8) : Prop :=
  (0 : UInt8) ∉ s ∧ ∃ before after, stringTable = before ++ (s ++ 0 :: after) ∧ (before.length : Int) = index

variable {stringTable : List UInt8} {index lhs rhs : Int} {s t : List UInt8}

theorem StringAt.mono (h : StringAt stringTable index s) (more : List UInt8) :
    StringAt (stringTable ++ more) index s := by
  obtain ⟨hs, before, after, rfl, hlen⟩ := h
  exact ⟨hs, before, after ++ more, by simp, hlen⟩

theorem stringAt_end (stringTable : List UInt8) (hs : (0 : UInt8) ∉ s) :
    StringAt (stringTable ++ s ++ [0]) stringTable.length s :=
  ⟨hs, stringTable, [], by simp, rfl⟩

theorem StringAt.getString (h : StringAt stringTable index s) : getString stringTable index = some s := by
  obtain ⟨hs, before, after, rfl, rfl⟩ := h
  have hlt : before.length < (before ++ (s ++ 0 :: after)).length := by simp
  have hdrop : (before ++ (s ++ 0 :: after)).drop before.length = s ++ 0 :: after := drop_left
  have htake : (s ++ 0 :: after).takeWhile (fun byte => byte ≠ 0) = s := by
    rw [takeWhile_append_of_pos (fun b hb => by
      simp only [ne_eq, decide_not, Bool.not_eq_true', decide_eq_false_iff_not]
      rintro rfl
      exact hs hb)]
    simp
  unfold Headermap.getString
  rw [if_pos ⟨Int.natCast_nonneg _, by exact_mod_cast hlt⟩, Int.toNat_natCast, hdrop]
  dsimp only
  rw [if_pos (by simp), htake]

/-- The byte at the index of a string is its first one, or the NUL byte that ends it. -/
theorem StringAt.char (h : StringAt stringTable index s) :
    char stringTable index = some (s.headD 0) := by
  obtain ⟨hs, before, after, rfl, rfl⟩ := h
  unfold Headermap.char
  rw [if_pos (Int.natCast_nonneg _), Int.toNat_natCast, List.getElem?_append_right (le_refl _), Nat.sub_self]
  cases s with
  | nil => rfl
  | cons c s => rfl

theorem StringAt.tail {c : UInt8} (h : StringAt stringTable index (c :: s)) :
    StringAt stringTable (index + 1) s := by
  obtain ⟨hs, before, after, rfl, rfl⟩ := h
  refine ⟨fun hmem => hs (mem_cons_of_mem _ hmem), before ++ [c], after, by simp, by simp⟩

/-- The loop of `isEqualKey` compares the rests of two strings. -/
theorem isEqualKeyFrom_eq (s : List UInt8) :
    ∀ (t : List UInt8) (offset n : Nat), StringAt stringTable (lhs + offset) s →
      StringAt stringTable (rhs + offset) t → s.length < n →
      isEqualKeyFrom stringTable lhs rhs (List.range' offset n) =
        some (decide (s.map tolower = t.map tolower)) := by
  have hzero : tolower 0 = 0 := tolower_eq_zero_iff.mpr rfl
  induction s with
  | nil =>
    intro t offset n hs ht hn
    obtain ⟨n, rfl⟩ : ∃ m, n = m + 1 := ⟨n - 1, by omega⟩
    rw [range'_succ, isEqualKeyFrom, hs.char, ht.char]
    cases t with
    | nil => simp [hzero]
    | cons c t =>
      have hc : tolower c ≠ 0 := fun h => ht.1 (tolower_eq_zero_iff.mp h ▸ mem_cons_self)
      simp [hzero, hc.symm]
  | cons b s ih =>
    intro t offset n hs ht hn
    obtain ⟨n, rfl⟩ : ∃ m, n = m + 1 := ⟨n - 1, by omega⟩
    have hb : tolower b ≠ 0 := fun h => hs.1 (tolower_eq_zero_iff.mp h ▸ mem_cons_self)
    rw [range'_succ, isEqualKeyFrom, hs.char, ht.char]
    cases t with
    | nil => simp [hzero, hb]
    | cons c t =>
      by_cases hbc : tolower b = tolower c
      · have hs' : StringAt stringTable (lhs + ((offset + 1 : Nat) : Int)) s := by
          rw [Nat.cast_add, ← Int.add_assoc]
          exact hs.tail
        have ht' : StringAt stringTable (rhs + ((offset + 1 : Nat) : Int)) t := by
          rw [Nat.cast_add, ← Int.add_assoc]
          exact ht.tail
        have hrest := ih t (offset + 1) n hs' ht' (by simpa using hn)
        have hc : tolower c ≠ 0 := hbc ▸ hb
        simp [hbc, hc, hrest]
      · simp [hbc]

theorem StringAt.length_lt (h : StringAt stringTable index s) : s.length < stringTable.length := by
  obtain ⟨-, before, after, rfl, -⟩ := h
  simp only [length_append, length_cons]
  omega

/-- Two keys are equal if they are up to the case of their letters. -/
theorem isEqualKey_eq (hs : StringAt stringTable lhs s) (ht : StringAt stringTable rhs t) :
    isEqualKey stringTable lhs rhs = some (decide (s.map tolower = t.map tolower)) := by
  unfold isEqualKey
  split_ifs with heq
  · subst heq
    have hst : s = t := some.inj (hs.getString.symm.trans ht.getString)
    simp [hst]
  · rw [range_eq_range']
    exact isEqualKeyFrom_eq s t 0 _ (by simpa using hs) (by simpa using ht) hs.length_lt

/-! ## The table of a list of strings -/

variable (names : List (List UInt8))

/-- The string table with these strings after the empty one. -/
def tableOf : List UInt8 := 0 :: names.flatMap (fun name => name ++ [0])

theorem tableOf_append (s : List UInt8) :
    tableOf (names ++ [s]) = tableOf names ++ s ++ [0] := by
  simp [tableOf]

theorem stringAt_empty : StringAt (tableOf names) 0 [] :=
  ⟨by simp, [], names.flatMap (fun name => name ++ [0]), rfl, rfl⟩

local instance : LawfulBEq (List UInt8) := inferInstance

/-- The strings in the table after `s` was looked up. -/
def addName (s : List UInt8) : List (List UInt8) :=
  if s = [] ∨ s ∈ names then names else names ++ [s]

/-- The string table and the index map belong to these strings. -/
structure Strings (hmap : Headermap) (names : List (List UInt8)) : Prop where
  table : hmap.stringTable = tableOf names
  nulFree : ∀ name ∈ names, (0 : UInt8) ∉ name
  sound : ∀ s index, hmap.stringIndexMap s = some index →
    StringAt hmap.stringTable index s ∧ (index = 0 ↔ s = [])
  complete : ∀ s, (hmap.stringIndexMap s).isSome = true ↔ s = [] ∨ s ∈ names

variable {hmap hmap' : Headermap} {names : List (List UInt8)}

theorem strings_empty (capacity : Nat) : Strings (empty capacity) [] := by
  refine ⟨rfl, by simp, fun s index h => ?_, fun s => ?_⟩
  · simp only [empty, ite_none_right_eq_some, some.injEq] at h
    obtain ⟨rfl, rfl⟩ := h
    exact ⟨stringAt_empty [], by simp⟩
  · simp [empty]

/-- What looking up a string leaves alone, and what it adds. -/
structure LookedUp (hmap : Headermap) (s : List UInt8) (index : Int) (hmap' : Headermap) : Prop where
  more : ∃ more, hmap'.stringTable = hmap.stringTable ++ more
  buckets : hmap'.buckets = hmap.buckets
  numEntries : hmap'.numEntries = hmap.numEntries
  maxValueLength : hmap'.maxValueLength = hmap.maxValueLength
  stringAt : StringAt hmap'.stringTable index s
  zero : index = 0 ↔ s = []

/-- **A string is looked up**, or added at the end of the table. -/
theorem Strings.getStringIndex (h : Strings hmap names) (hs : (0 : UInt8) ∉ s)
    (hget : hmap.getStringIndex s = some (index, hmap')) :
    Strings hmap' (addName names s) ∧ LookedUp hmap s index hmap' := by
  unfold Headermap.getStringIndex at hget
  split at hget
  · rename_i found hfound
    obtain ⟨rfl, rfl⟩ := Prod.mk.inj (some.inj hget)
    obtain ⟨hat, hzero⟩ := h.sound s found hfound
    have hmem : s = [] ∨ s ∈ names := (h.complete s).mp (by simp [hfound])
    rw [addName, if_pos hmem]
    exact ⟨h, ⟨⟨[], by simp⟩, rfl, rfl, rfl, hat, hzero⟩⟩
  · rename_i hnone
    simp only [bind_eq_bind, bind_eq_some_iff, int32, ite_none_right_eq_some] at hget
    obtain ⟨start, ⟨-, hstart⟩, hget⟩ := hget
    obtain rfl := some.inj hstart
    obtain ⟨rfl, rfl⟩ := Prod.mk.inj (some.inj hget)
    have hmem : ¬ (s = [] ∨ s ∈ names) := by
      rw [← h.complete s, hnone]
      simp
    have hne : s ≠ [] := fun h => hmem (.inl h)
    have hpos : hmap.stringTable ≠ [] := by
      rw [h.table]
      exact cons_ne_nil _ _
    have hat := stringAt_end hmap.stringTable hs
    refine ⟨⟨?_, ?_, fun t index' hindex => ?_, fun t => ?_⟩, ⟨⟨s ++ [0], by simp⟩, rfl, rfl, rfl, hat, ?_⟩⟩
    · rw [addName, if_neg hmem, tableOf_append, h.table]
    · intro name hname
      rw [addName, if_neg hmem, mem_append, mem_singleton] at hname
      rcases hname with hname | rfl
      · exact h.nulFree name hname
      · exact hs
    · by_cases heq : t = s
      · subst heq
        obtain rfl : (hmap.stringTable.length : Int) = index' := by simpa using hindex
        exact ⟨hat, by simp [hpos, hne]⟩
      · obtain ⟨hat', hzero'⟩ := h.sound t index' (by simpa [heq] using hindex)
        refine ⟨?_, hzero'⟩
        rw [append_assoc]
        exact hat'.mono _
    · by_cases heq : t = s
      · subst heq
        simp [addName, hmem]
      · simp [addName, hmem, heq, h.complete t]
    · simp [hpos, hne]

/-- A string that fits into the table is found. -/
theorem Strings.getStringIndex_isSome (h : Strings hmap names)
    (hlen : (tableOf (addName names s)).length < 2 ^ 31) : (hmap.getStringIndex s).isSome = true := by
  have hlt : hmap.stringTable.length < 2 ^ 31 := by
    rw [h.table]
    unfold addName at hlen
    split_ifs at hlen
    · exact hlen
    · rw [tableOf_append] at hlen
      simp only [length_append] at hlen
      omega
  unfold Headermap.getStringIndex
  split
  · rfl
  · rw [int32, if_pos hlt]
    rfl

/-! ## The distinct strings of a list -/

variable (strings : List (List UInt8))

/-- The distinct non-empty strings, in order. -/
def distinctNames : List (List UInt8) :=
  (strings.filter (fun s => s ≠ [])).eraseDups

theorem distinctNames_append (s : List UInt8) :
    distinctNames (strings ++ [s]) = addName (distinctNames strings) s := by
  unfold distinctNames addName
  rw [filter_append, eraseDups_append]
  by_cases hs : s = []
  · simp [hs]
  · by_cases hmem : s ∈ strings
    · simp [hs, hmem, List.removeAll]
    · simp [hs, hmem, List.removeAll, eraseDups_cons]

theorem foldl_addName (strings more : List (List UInt8)) :
    more.foldl addName (distinctNames strings) = distinctNames (strings ++ more) := by
  induction more generalizing strings with
  | nil => simp
  | cons s rest ih => rw [foldl_cons, ← distinctNames_append, ih, append_assoc, singleton_append]

theorem length_tableOf_addName_le (names : List (List UInt8)) (s : List UInt8) :
    (tableOf names).length ≤ (tableOf (addName names s)).length := by
  unfold addName
  split_ifs
  · exact le_refl _
  · rw [tableOf_append]
    simp only [length_append]
    omega

theorem length_tableOf_foldl_le (more : List (List UInt8)) (names : List (List UInt8)) :
    (tableOf names).length ≤ (tableOf (more.foldl addName names)).length := by
  induction more generalizing names with
  | nil => exact le_refl _
  | cons s rest ih => exact (length_tableOf_addName_le names s).trans (ih (addName names s))

end Headermap

end Builra
