import Builra.Lib.LinearProbing
import Builra.Util.HeadermapStrings
import Mathlib.Data.Nat.Bitwise

namespace Builra

open List Option

/-!
# `Util.HeadermapContents` — a headermap that has not grown is a case-insensitive map

As long as no insert grows the table, the buckets represent a table with linear probing whose keys are folded
to lower case, and `numEntries` counts the used buckets.
-/

namespace Headermap

open LinearProbing

/-- What the buckets are compared by: the key without the case of its letters. -/
def foldedKey (pair : List UInt8 × List UInt8) : List UInt8 := pair.1.map tolower

def foldedHash (key : List UInt8) : Nat := key.foldl (fun result byte => result + byte.toNat * 13) 0

theorem hashBytes_eq (key : List UInt8) : hashBytes key = foldedHash (key.map tolower) := by
  rw [hashBytes, foldedHash, foldl_map]

/-- A call of `insert`. -/
structure Call where
  key : List UInt8
  value : List UInt8
  replace : Bool := true

/-- The calls insert non-empty strings without NUL bytes. -/
structure Call.Valid (call : Call) : Prop where
  key : call.key ≠ []
  keyNul : (0 : UInt8) ∉ call.key
  valueNul : (0 : UInt8) ∉ call.value

/-- One pair for each key, up to case, as the last insert that took effect for it gave it. -/
def effective (calls : List Call) : List (List UInt8 × List UInt8) :=
  calls.foldl (fun pairs call => upsert foldedKey call.replace pairs (call.key, call.value)) []

theorem effective_append (calls : List Call) (call : Call) :
    effective (calls ++ [call]) = upsert foldedKey call.replace (effective calls) (call.key, call.value) := by
  rw [effective, foldl_append]
  rfl

/-! ## Buckets and slots -/

/-- The slot a bucket represents. -/
def Represents (stringTable : List UInt8) (bucket : Bucket) : Option (List UInt8 × List UInt8) → Prop
  | none => bucket = {}
  | some (key, value) => bucket.keyIndex ≠ 0 ∧ StringAt stringTable bucket.keyIndex key ∧
      ∃ front back, StringAt stringTable bucket.prefixIndex front ∧
        StringAt stringTable bucket.suffixIndex back ∧ value = front ++ back

variable {bucket : Bucket} {hmap : Headermap} {slots : List (Option (List UInt8 × List UInt8))}

theorem Represents.mono {stringTable : List UInt8} {slot : Option (List UInt8 × List UInt8)}
    (h : Represents stringTable bucket slot) (more : List UInt8) :
    Represents (stringTable ++ more) bucket slot := by
  cases slot with
  | none => exact h
  | some pair =>
    obtain ⟨hne, hkey, front, back, hfront, hback, heq⟩ := h
    exact ⟨hne, hkey.mono more, front, back, hfront.mono more, hback.mono more, heq⟩

theorem forall₂_getElem? {α β : Type} {R : α → β → Prop} {l : List α} {l' : List β} (h : List.Forall₂ R l l')
    {p : Nat} (hp : p < l'.length) : ∃ a b, l[p]? = some a ∧ l'[p]? = some b ∧ R a b := by
  have hlen := h.length_eq
  have hp' : p < l.length := hlen ▸ hp
  exact ⟨_, _, getElem?_eq_getElem hp', getElem?_eq_getElem hp, h.get hp' hp⟩

theorem forall₂_set {α β : Type} {R : α → β → Prop} {l : List α} {l' : List β} (h : List.Forall₂ R l l')
    {a : α} {b : β} (hab : R a b) (p : Nat) : List.Forall₂ R (l.set p a) (l'.set p b) := by
  induction h generalizing p with
  | nil => exact .nil
  | cons hr hrest ih =>
    cases p with
    | zero => exact .cons hab hrest
    | succ p => exact .cons hr (ih p)

/-- What `insertItem` does with its bucket at the index where it stops. -/
def settle (hmap : Headermap) (bucket : Bucket) (replace : Bool) (index : Nat) :
    Option (Option (List UInt8 × List UInt8)) → Headermap
  | some (some _) => if replace then { hmap with buckets := hmap.buckets.set index bucket } else hmap
  | _ => { hmap with numEntries := hmap.numEntries + 1, buckets := hmap.buckets.set index bucket }

/-- Where the loop of `insertItem` stops. -/
theorem insertItemFrom_eq {m : Nat} {pair : List UInt8 × List UInt8} (replace : Bool)
    (hb : List.Forall₂ (Represents hmap.stringTable) hmap.buckets slots) (hm : hmap.buckets.length = 2 ^ m)
    (hr : Represents hmap.stringTable bucket (some pair)) (steps : List Nat) :
    insertItemFrom hmap (foldedHash (foldedKey pair)) bucket replace steps =
      (steps.find? (fun i => stops foldedKey slots (foldedKey pair)
        (position foldedHash slots.length (foldedKey pair) i))).map (fun i =>
          settle hmap bucket replace (position foldedHash slots.length (foldedKey pair) i)
            slots[position foldedHash slots.length (foldedKey pair) i]?) := by
  obtain ⟨key, value⟩ := pair
  obtain ⟨hne, hkey, -⟩ := hr
  have hlen : slots.length = 2 ^ m := hb.length_eq.symm.trans hm
  have hpos : 0 < slots.length := hlen ▸ Nat.two_pow_pos m
  induction steps with
  | nil => rfl
  | cons i rest ih =>
    have hindex : (foldedHash (foldedKey (key, value)) + i) &&& (hmap.buckets.length - 1) =
        position foldedHash slots.length (foldedKey (key, value)) i := by
      rw [hm, Nat.and_two_pow_sub_one_eq_mod, position, hlen]
    rw [insertItemFrom, hindex]
    generalize hp : position foldedHash slots.length (foldedKey (key, value)) i = p
    have hplt : p < slots.length := by
      rw [← hp]
      exact position_lt hpos _ _
    obtain ⟨found, slot, hfound, hslot, hrep⟩ := forall₂_getElem? hb hplt
    rw [hfound, find?_cons, hp]
    cases slot with
    | none =>
      have hfree : found.keyIndex = 0 := by rw [show found = {} from hrep]
      simp [stops, hslot, hfree, hp, settle]
    | some pair' =>
      obtain ⟨hne', hkey', -⟩ := hrep
      have hequal := isEqualKey_eq hkey' hkey
      by_cases heq : foldedKey pair' = foldedKey (key, value)
      · have hfold : pair'.1.map tolower = key.map tolower := heq
        cases replace <;> simp [stops, hslot, hne', hequal, heq, hfold, hp, settle]
      · have hfold : ¬ pair'.1.map tolower = key.map tolower := heq
        simp only [stops, hslot, heq, hne', hequal, hfold, decide_false, if_false, bind_eq_bind,
          bind_some, Bool.false_eq_true]
        exact ih

/-- **`insertItem` stores the pair** that its bucket represents. -/
theorem insertItem_store {hmap' : Headermap} {m : Nat} {key value : List UInt8} {replace : Bool}
    (hb : List.Forall₂ (Represents hmap.stringTable) hmap.buckets slots) (hm : hmap.buckets.length = 2 ^ m)
    (hp : Placed foldedKey foldedHash slots) (hr : Represents hmap.stringTable bucket (some (key, value)))
    (h : hmap.insertItem key bucket replace = some hmap') :
    ∃ slots', store foldedKey foldedHash replace slots (key, value) = some slots' ∧
      List.Forall₂ (Represents hmap.stringTable) hmap'.buckets slots' ∧
      hmap'.numEntries + (entries slots).length = hmap.numEntries + (entries slots').length ∧
      hmap'.stringTable = hmap.stringTable ∧ hmap'.stringIndexMap = hmap.stringIndexMap ∧
      hmap'.maxValueLength = hmap.maxValueLength := by
  have hlen : slots.length = hmap.buckets.length := hb.length_eq.symm
  have hhash : hashBytes key = foldedHash (foldedKey (key, value)) := hashBytes_eq key
  rw [insertItem, hhash, insertItemFrom_eq replace hb hm hr, ← hlen] at h
  unfold store
  have hprobe : probe foldedKey foldedHash slots (foldedKey (key, value)) =
      (List.range slots.length).find? (fun i => stops foldedKey slots (foldedKey (key, value))
        (position foldedHash slots.length (foldedKey (key, value)) i)) := rfl
  rw [← hprobe] at h
  obtain ⟨i, hi, rfl⟩ := map_eq_some_iff.mp h
  rw [hi]
  dsimp only
  rcases hp.found hi with ⟨e₀, he₀, hk₀⟩ | ⟨hfree, -⟩
  · rw [he₀]
    cases replace with
    | false => exact ⟨slots, rfl, hb, rfl, rfl, rfl, rfl⟩
    | true =>
      refine ⟨_, rfl, forall₂_set hb hr _, ?_, rfl, rfl, rfl⟩
      rw [hp.entries_set_held he₀ hk₀, length_map]
      rfl
  · rw [hfree]
    refine ⟨_, rfl, forall₂_set hb hr _, ?_, rfl, rfl, rfl⟩
    rw [(entries_set_free hfree (key, value)).length_eq, length_append, length_singleton]
    dsimp only [settle]
    omega

/-! ## Inserting without growing -/

/-- The rest of `insert`, once the table has its size. -/
def place (hmap : Headermap) (call : Call) : Option Headermap := do
  let (keyIndex, hmap) ← hmap.getStringIndex call.key
  let (dirname, basename) := Path.split call.value
  if dirname = [] then
    let (suffixIndex, hmap) ← hmap.getStringIndex call.value
    hmap.insertItem call.key { keyIndex := keyIndex, prefixIndex := 0, suffixIndex := suffixIndex } call.replace
  else
    let (prefixIndex, hmap) ← hmap.getStringIndex (dirname ++ [Path.pathSeparatorUTF8])
    let (suffixIndex, hmap) ← hmap.getStringIndex basename
    hmap.insertItem call.key { keyIndex := keyIndex, prefixIndex := prefixIndex, suffixIndex := suffixIndex }
      call.replace

theorem insert_eq (hmap : Headermap) (call : Call) :
    hmap.insert call.key call.value call.replace =
      (if 3 * (hmap.numEntries + 1) > 2 * hmap.buckets.length then hmap.grow else some hmap).bind
        (fun hmap => hmap.place call) := by
  unfold insert
  split_ifs
  · rfl
  · rfl

variable (value : List UInt8)

/-- The front and the back of a value, as its bucket has them. -/
def parts : List UInt8 × List UInt8 :=
  if (Path.split value).1 = [] then ([], value)
  else ((Path.split value).1 ++ [Path.pathSeparatorUTF8], (Path.split value).2)

/-- The value that comes back. -/
def stored : List UInt8 := (parts value).1 ++ (parts value).2

/-- The strings a call looks up after its key; the empty string is in the table from the start. -/
def stringsOf (call : Call) : List (List UInt8) := [call.key, (parts call.value).1, (parts call.value).2]

variable (calls : List Call)

/-- The strings in the table after these calls. -/
def names : List (List UInt8) := distinctNames (calls.flatMap stringsOf)

/-- The string table after these calls. -/
def stringTableOf : List UInt8 := tableOf (names calls)

theorem names_append (call : Call) :
    names (calls ++ [call]) = (stringsOf call).foldl addName (names calls) := by
  rw [names, names, foldl_addName, flatMap_append, flatMap_singleton]

theorem getStringIndex_nil {names : List (List UInt8)} (h : Strings hmap names) :
    hmap.getStringIndex [] = some (0, hmap) := by
  obtain ⟨index, hindex⟩ := isSome_iff_exists.mp ((h.complete []).mpr (.inl rfl))
  obtain rfl := (h.sound [] index hindex).2.mpr rfl
  simp [getStringIndex, hindex]

/-- Looking up the parts of a value is what `place` does, in either case. -/
theorem place_eq {names : List (List UInt8)} (h : Strings hmap names) {call : Call} (hv : call.Valid) :
    hmap.place call = (hmap.getStringIndex call.key).bind (fun (keyIndex, hmap) =>
      (hmap.getStringIndex (parts call.value).1).bind (fun (prefixIndex, hmap) =>
        (hmap.getStringIndex (parts call.value).2).bind (fun (suffixIndex, hmap) =>
          hmap.insertItem call.key
            { keyIndex := keyIndex, prefixIndex := prefixIndex, suffixIndex := suffixIndex } call.replace))) := by
  unfold place
  cases hkey : hmap.getStringIndex call.key with
  | none => rfl
  | some result =>
    obtain ⟨keyIndex, hmap₁⟩ := result
    obtain ⟨h₁, -⟩ := h.getStringIndex hv.keyNul hkey
    simp only [bind_eq_bind, bind_some, parts]
    split_ifs with hd
    · rw [getStringIndex_nil h₁]
      rfl
    · rfl

theorem split_cases :
    (Path.pathSeparatorUTF8 ∉ value ∧ Path.split value = ([], value)) ∨
      (∃ rest, value = Path.pathSeparatorUTF8 :: rest ∧ Path.pathSeparatorUTF8 ∉ rest ∧
        Path.split value = ([Path.pathSeparatorUTF8], rest)) ∨
      ∃ front back, front ≠ [] ∧ value = front ++ Path.pathSeparatorUTF8 :: back ∧
        Path.split value = (front, back) := by
  unfold Path.split
  cases hidx : Path.lastIndex value Path.pathSeparatorUTF8 with
  | none =>
    refine .inl ⟨fun hmem => ?_, rfl⟩
    obtain ⟨j, hj, hjval⟩ := mem_iff_getElem.mp hmem
    have hno := find?_eq_none.mp hidx j (by simpa using hj)
    rw [getElem?_eq_getElem hj, hjval] at hno
    simp at hno
  | some idx =>
    right
    dsimp only
    have hget : value[idx]? = some Path.pathSeparatorUTF8 := by
      simpa using find?_some hidx
    obtain ⟨hlt, hval⟩ := List.getElem?_eq_some_iff.mp hget
    have hsplit : value = value.take idx ++ Path.pathSeparatorUTF8 :: value.drop (idx + 1) := by
      rw [← hval, getElem_cons_drop, take_append_drop]
    split_ifs with hzero
    · left
      subst hzero
      refine ⟨value.drop 1, hsplit, fun hmem => ?_, ?_⟩
      · -- a later separator would have been found first
        obtain ⟨j, hj, hjval⟩ := mem_iff_getElem.mp hmem
        rw [getElem_drop] at hjval
        have hlast := find?_eq_some_iff_append.mp hidx
        obtain ⟨-, before, after, hrev, hbefore⟩ := hlast
        have hlen : 1 + j < value.length := by
          rw [length_drop] at hj
          omega
        have hmem' : 1 + j ∈ before := by
          have hin : 1 + j ∈ (List.range value.length).reverse := by
            rw [mem_reverse, mem_range]
            exact hlen
          rw [hrev, mem_append, mem_cons] at hin
          rcases hin with hin | hin | hin
          · exact hin
          · omega
          · -- what is looked at after index 0 is below it
            have hsorted : (List.range value.length).reverse.Pairwise (fun a b => b < a) :=
              pairwise_reverse.mpr pairwise_lt_range
            rw [hrev, pairwise_append, pairwise_cons] at hsorted
            exact absurd (hsorted.2.1.1 _ hin) (Nat.not_lt_zero _)
        have hno := hbefore _ hmem'
        rw [getElem?_eq_getElem hlen, hjval] at hno
        simp at hno
      · rw [hsplit]
        simp
    · right
      refine ⟨value.take idx, value.drop (idx + 1), ?_, hsplit, rfl⟩
      intro hnil
      have hlen := congrArg List.length hnil
      rw [length_take, length_nil] at hlen
      omega

/-- **A value comes back** unless its only separator is at its start. -/
theorem stored_eq_iff :
    stored value = value ↔
      ¬ ∃ rest, value = Path.pathSeparatorUTF8 :: rest ∧ Path.pathSeparatorUTF8 ∉ rest := by
  unfold stored parts
  rcases split_cases value with ⟨hnone, h⟩ | ⟨rest, hvalue, hno, h⟩ | ⟨front, back, hfront, hvalue, h⟩
  · rw [h]
    simp only [if_true, nil_append, true_iff]
    rintro ⟨rest, rfl, -⟩
    exact hnone mem_cons_self
  · rw [h]
    simp only [cons_ne_nil, if_false]
    refine ⟨fun heq => ?_, fun hnot => absurd ⟨rest, hvalue, hno⟩ hnot⟩
    have hlen := congrArg List.length heq
    rw [hvalue] at hlen
    simp at hlen
  · rw [h]
    simp only [hfront, if_false]
    refine ⟨fun _ => ?_, fun _ => by rw [hvalue]; simp⟩
    rintro ⟨rest, hrest, hno⟩
    cases front with
    | nil => exact hfront rfl
    | cons c front =>
      rw [hrest] at hvalue
      obtain ⟨-, rfl⟩ := List.cons.inj hvalue
      exact hno (by simp)

theorem parts_nulFree {value : List UInt8} (hv : (0 : UInt8) ∉ value) :
    (0 : UInt8) ∉ (parts value).1 ∧ (0 : UInt8) ∉ (parts value).2 := by
  have hsep : (0 : UInt8) ≠ Path.pathSeparatorUTF8 := by decide
  unfold parts
  rcases split_cases value with ⟨-, h⟩ | ⟨rest, hvalue, -, h⟩ | ⟨front, back, hfront, hvalue, h⟩
  · rw [h]
    simpa using hv
  · rw [hvalue, mem_cons, not_or] at hv
    rw [h]
    simpa [hsep] using hv.2
  · rw [hvalue, mem_append, mem_cons, not_or, not_or] at hv
    rw [h]
    simpa [hsep, hfront] using ⟨hv.1, hv.2.2⟩

/-- **The table after calls that have not grown it.** -/
structure Holds (capacity : Nat) (calls : List Call) (hmap : Headermap) : Prop where
  strings : Strings hmap (names calls)
  slots : ∃ slots, List.Forall₂ (Represents hmap.stringTable) hmap.buckets slots ∧
    Placed foldedKey foldedHash slots ∧
    (entries slots).Perm ((effective calls).map (fun pair => (pair.1, stored pair.2)))
  numEntries : hmap.numEntries = (effective calls).length
  size : hmap.buckets.length = roundUpToPowerOfTwo capacity
  load : 3 * hmap.numEntries ≤ 2 * hmap.buckets.length
  maxValueLength : hmap.maxValueLength = 0

variable {capacity m : Nat} {calls : List Call} {call : Call} {hmap hmap' : Headermap}

theorem holds_empty (capacity : Nat) : Holds capacity [] (empty capacity) := by
  refine ⟨strings_empty capacity, ⟨List.replicate (roundUpToPowerOfTwo capacity) none, ?_,
    placed_replicate _, ?_⟩, rfl, length_replicate, Nat.zero_le _, rfl⟩
  · rw [forall₂_iff_get]
    refine ⟨by simp [empty], fun i h₁ h₂ => ?_⟩
    simp [empty, Represents]
  · have hnil : entries (List.replicate (roundUpToPowerOfTwo capacity)
        (none : Option (List UInt8 × List UInt8))) = [] := by simp [entries]
    rw [hnil]
    rfl

theorem LookedUp.forall₂ {s : List UInt8} {index : Int} (h : LookedUp hmap s index hmap')
    (hb : List.Forall₂ (Represents hmap.stringTable) hmap.buckets slots) :
    List.Forall₂ (Represents hmap'.stringTable) hmap'.buckets slots := by
  obtain ⟨more, hmore⟩ := h.more
  rw [h.buckets, hmore]
  exact hb.imp (fun _ _ hr => hr.mono more)

theorem LookedUp.stringAt_mono {s t : List UInt8} {index index' : Int} (h : LookedUp hmap s index hmap')
    (ht : StringAt hmap.stringTable index' t) : StringAt hmap'.stringTable index' t := by
  obtain ⟨more, hmore⟩ := h.more
  rw [hmore]
  exact ht.mono more

theorem length_upsert (replace : Bool) (pairs : List (List UInt8 × List UInt8)) (pair : List UInt8 × List UInt8) :
    (upsert foldedKey replace pairs pair).length ≤ pairs.length + 1 := by
  unfold upsert
  split_ifs
  · rw [length_map]
    exact Nat.le_succ _
  · exact Nat.le_succ _
  · rw [length_append, length_singleton]

/-- **A call that does not grow the table.** -/
theorem Holds.place (h : Holds capacity calls hmap) (hv : call.Valid) (hm : hmap.buckets.length = 2 ^ m)
    (hroom : 3 * (hmap.numEntries + 1) ≤ 2 * hmap.buckets.length) (hplace : hmap.place call = some hmap') :
    Holds capacity (calls ++ [call]) hmap' := by
  rw [place_eq h.strings hv] at hplace
  obtain ⟨⟨keyIndex, hmap₁⟩, hkey, hplace⟩ := bind_eq_some_iff.mp hplace
  obtain ⟨⟨prefixIndex, hmap₂⟩, hfront, hplace⟩ := bind_eq_some_iff.mp hplace
  obtain ⟨⟨suffixIndex, hmap₃⟩, hback, hplace⟩ := bind_eq_some_iff.mp hplace
  dsimp only at hplace
  -- the three strings are looked up
  obtain ⟨hnul₁, hnul₂⟩ := parts_nulFree hv.valueNul
  obtain ⟨hs₁, hl₁⟩ := h.strings.getStringIndex hv.keyNul hkey
  obtain ⟨hs₂, hl₂⟩ := hs₁.getStringIndex hnul₁ hfront
  obtain ⟨hs₃, hl₃⟩ := hs₂.getStringIndex hnul₂ hback
  have hnames : names (calls ++ [call]) =
      addName (addName (addName (names calls) call.key) (parts call.value).1) (parts call.value).2 :=
    names_append calls call
  rw [← hnames] at hs₃
  obtain ⟨slots, hb, hp, hperm⟩ := h.slots
  have hb₃ := hl₃.forall₂ (hl₂.forall₂ (hl₁.forall₂ hb))
  have hbuckets : hmap₃.buckets = hmap.buckets := hl₃.buckets.trans (hl₂.buckets.trans hl₁.buckets)
  have hnum : hmap₃.numEntries = hmap.numEntries := hl₃.numEntries.trans (hl₂.numEntries.trans hl₁.numEntries)
  have hmax : hmap₃.maxValueLength = hmap.maxValueLength :=
    hl₃.maxValueLength.trans (hl₂.maxValueLength.trans hl₁.maxValueLength)
  have hrep : Represents hmap₃.stringTable
      { keyIndex := keyIndex, prefixIndex := prefixIndex, suffixIndex := suffixIndex }
      (some (call.key, stored call.value)) := by
    refine ⟨fun hzero => hv.key (hl₁.zero.mp hzero), hl₃.stringAt_mono (hl₂.stringAt_mono hl₁.stringAt),
      _, _, hl₃.stringAt_mono hl₂.stringAt, hl₃.stringAt, rfl⟩
  -- and the pair is stored
  obtain ⟨slots', hstore, hb', hcount, htable, hindex, hmax'⟩ :=
    insertItem_store hb₃ (hbuckets ▸ hm) hp hrep hplace
  obtain ⟨hp', hlen', hperm'⟩ := store_spec hp hstore
  have hperm₂ : (entries slots').Perm
      ((effective (calls ++ [call])).map (fun pair => (pair.1, stored pair.2))) := by
    have hmap : (upsert foldedKey call.replace (effective calls) (call.key, call.value)).map
        (fun pair => (pair.1, stored pair.2)) =
        upsert foldedKey call.replace ((effective calls).map (fun pair => (pair.1, stored pair.2)))
          (call.key, stored call.value) := by
      apply upsert_map
      exact fun _ => rfl
    rw [effective_append, hmap]
    exact hperm'.trans (upsert_perm hperm call.replace _)
  have hlen : (entries slots).length = (effective calls).length := by
    rw [hperm.length_eq, length_map]
  have hlen₂ : (entries slots').length = (effective (calls ++ [call])).length := by
    rw [hperm₂.length_eq, length_map]
  have hnum' : hmap'.numEntries = (effective (calls ++ [call])).length := by
    have hold := h.numEntries
    omega
  have hsize : hmap'.buckets.length = hmap.buckets.length := by
    rw [hb'.length_eq, hlen', ← hb.length_eq]
  have hle : (effective (calls ++ [call])).length ≤ (effective calls).length + 1 := by
    rw [effective_append]
    exact length_upsert _ _ _
  refine ⟨⟨?_, hs₃.nulFree, ?_, ?_⟩, ⟨slots', ?_, hp', hperm₂⟩, hnum', hsize.trans h.size, ?_, ?_⟩
  · rw [htable]
    exact hs₃.table
  · rw [hindex, htable]
    exact hs₃.sound
  · rw [hindex]
    exact hs₃.complete
  · rw [htable]
    exact hb'
  · have hold := h.numEntries
    rw [hnum', hsize]
    omega
  · rw [hmax', hmax]
    exact h.maxValueLength

/-- There is room for the call while its strings fit into the table. -/
theorem Holds.place_isSome (h : Holds capacity calls hmap) (hv : call.Valid) (hm : hmap.buckets.length = 2 ^ m)
    (hroom : 3 * (hmap.numEntries + 1) ≤ 2 * hmap.buckets.length)
    (hsize : (stringTableOf (calls ++ [call])).length < 2 ^ 31) : (hmap.place call).isSome = true := by
  rw [place_eq h.strings hv]
  obtain ⟨hnul₁, hnul₂⟩ := parts_nulFree hv.valueNul
  have hnames : names (calls ++ [call]) =
      addName (addName (addName (names calls) call.key) (parts call.value).1) (parts call.value).2 :=
    names_append calls call
  rw [stringTableOf, hnames] at hsize
  have hsize₂ := (length_tableOf_addName_le _ (parts call.value).2).trans_lt hsize
  have hsize₁ := (length_tableOf_addName_le _ (parts call.value).1).trans_lt hsize₂
  obtain ⟨⟨keyIndex, hmap₁⟩, hkey⟩ := isSome_iff_exists.mp (h.strings.getStringIndex_isSome hsize₁)
  obtain ⟨hs₁, hl₁⟩ := h.strings.getStringIndex hv.keyNul hkey
  obtain ⟨⟨prefixIndex, hmap₂⟩, hfront⟩ := isSome_iff_exists.mp (hs₁.getStringIndex_isSome hsize₂)
  obtain ⟨hs₂, hl₂⟩ := hs₁.getStringIndex hnul₁ hfront
  obtain ⟨⟨suffixIndex, hmap₃⟩, hback⟩ := isSome_iff_exists.mp (hs₂.getStringIndex_isSome hsize)
  obtain ⟨hs₃, hl₃⟩ := hs₂.getStringIndex hnul₂ hback
  simp only [hkey, hfront, hback, bind_some]
  obtain ⟨slots, hb, hp, hperm⟩ := h.slots
  have hb₃ := hl₃.forall₂ (hl₂.forall₂ (hl₁.forall₂ hb))
  have hbuckets : hmap₃.buckets = hmap.buckets := hl₃.buckets.trans (hl₂.buckets.trans hl₁.buckets)
  have hrep : Represents hmap₃.stringTable
      { keyIndex := keyIndex, prefixIndex := prefixIndex, suffixIndex := suffixIndex }
      (some (call.key, stored call.value)) := by
    refine ⟨fun hzero => hv.key (hl₁.zero.mp hzero), hl₃.stringAt_mono (hl₂.stringAt_mono hl₁.stringAt),
      _, _, hl₃.stringAt_mono hl₂.stringAt, hl₃.stringAt, rfl⟩
  -- a slot is free
  have hlt : (entries slots).length < slots.length := by
    have hlen : (entries slots).length = (effective calls).length := by
      rw [hperm.length_eq, length_map]
    have hnum := h.numEntries
    have hslots := hb.length_eq
    omega
  have hprobe : (store foldedKey foldedHash true slots (call.key, stored call.value)).isSome = true :=
    store_isSome hlt true _
  rw [insertItem, hashBytes_eq, show call.key.map tolower = foldedKey (call.key, stored call.value) from rfl,
    insertItemFrom_eq call.replace hb₃ (hbuckets ▸ hm) hrep, isSome_map, hb₃.length_eq]
  unfold store at hprobe
  cases hi : probe foldedKey foldedHash slots (foldedKey (call.key, stored call.value)) with
  | none =>
    rw [hi] at hprobe
    exact absurd hprobe (by simp)
  | some i =>
    unfold probe at hi
    rw [hi]
    rfl

end Headermap

end Builra
