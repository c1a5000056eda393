import Builra.Lib.CollectionDifference

namespace Builra

open List Nat
open Option hiding filter_map map_map

/-!
# `Util.NWayMerge` — one list of the elements of several arrays

The arrays are merged one by one, by the differences of each from what is merged so far. An element that an array
lacks stays in the merge, so an inserted element has to be put behind the removed ones that stand before it.
They are counted by comparing their offsets in the merge with the offset of the inserted element in the array.
-/

open Differences

structure NWayMergeElement (T : Type) where
  element : T
  elementOf : Finset Nat
deriving DecidableEq

namespace NWayMerge

variable {T : Type}

/-- By which `nWayMerge` compares elements. -/
def SameElement (first second : NWayMergeElement T) : Prop := first.element = second.element

/-- `CollectionDifference.Change` -/
inductive Change (T : Type) where
  | insert (offset : Nat) (element : NWayMergeElement T)
  | remove (offset : Nat) (element : NWayMergeElement T)

variable (diff : CollectionDifference (NWayMergeElement T))

/-- A difference as it is iterated: removals from high to low, then insertions from low to high. -/
def changes : List (Change T) :=
  diff.removals.reverse.map (fun r => .remove r.1 r.2) ++ diff.insertions.map (fun i => .insert i.1 i.2)

def adjustment (offset : Nat) : Nat :=
  (diff.removals.filter (fun r => r.1 ≤ offset)).length

/-- The body of the loop over the changes; none where an offset is out of range. -/
def applyChange (idx : Nat) (merged : List (NWayMergeElement T)) :
    Change T → Option (List (NWayMergeElement T))
  | .insert offset element => insertAt merged (offset + adjustment diff offset) element
  | .remove offset _ =>
    match merged[offset]? with
    | some e => some (merged.set offset { e with elementOf := e.elementOf.erase idx })
    | none => none

/-- All of `merged`, as elements of the array at `idx` too. -/
def mark (idx : Nat) (merged : List (NWayMergeElement T)) : List (NWayMergeElement T) :=
  merged.map (fun e => ⟨e.element, e.elementOf ∪ {idx}⟩)

/-- The elements of the array at `idx`. -/
def next (idx : Nat) (array : List T) : List (NWayMergeElement T) := array.map (fun e => ⟨e, {idx}⟩)

variable (difference : List (NWayMergeElement T) → List (NWayMergeElement T) → CollectionDifference (NWayMergeElement
    T))

/-- The body of the loop over the arrays, `difference` from the first list to the second. -/
def mergeArray (merged : List (NWayMergeElement T)) (array : List T × Nat) : Option (List (NWayMergeElement T)) :=
  let merged := mark array.2 merged
  let diff := difference merged (next array.2 array.1)
  (changes diff).foldlM (applyChange diff array.2) merged

def nWayMerge : List (List T) → Option (List (NWayMergeElement T))
  | [] => some []
  | [array] => some (next 0 array)
  | array :: arrays => ((array :: arrays).zipIdx.drop 1).foldlM (mergeArray difference) (next 0 array)

/-- What is read of the array at `i`. -/
def inputOf (i : Nat) (merged : List (NWayMergeElement T)) : List T :=
  (merged.filter (fun e => i ∈ e.elementOf)).map NWayMergeElement.element

/-! ## The places of inserted elements -/

/-- Offsets of removed and inserted elements compare as the numbers of elements before them that are kept. -/
def OffsetsInOrder (diff : CollectionDifference (NWayMergeElement T)) : Prop :=
  ∀ r ∈ diff.removed, ∀ o ∈ diff.inserted,
    (r ≤ o → kept diff.removed r ≤ kept diff.inserted o) ∧ (o < r → kept diff.inserted o ≤ kept diff.removed r)

/-- The number of elements of the merge, kept or removed, that an inserted element is put behind. -/
def gap (diff : CollectionDifference (NWayMergeElement T)) (i : Nat × NWayMergeElement T) : Nat :=
  kept diff.inserted i.1 + adjustment diff i.1

variable {diff : CollectionDifference (NWayMergeElement T)}

theorem adjustment_eq_count (diff : CollectionDifference (NWayMergeElement T)) (offset : Nat) :
    adjustment diff offset = Nat.count (fun k => k ∈ diff.removed) (offset + 1) := by
  rw [count_mem (diff.removed_ascending.imp Nat.ne_of_lt), CollectionDifference.removed, filter_map,
    length_map, adjustment]
  congr 1
  refine filter_congr (fun r _ => ?_)
  show decide (r.1 ≤ offset) = decide (r.1 < offset + 1)
  rw [decide_eq_decide, Nat.lt_succ_iff]

/-- Behind as many kept elements as it belongs, if the removed ones at its offset or below are those before it. -/
theorem kept_add_count_eq_iff {gone : List Nat} {c o : Nat} :
    kept gone (c + Nat.count (fun k => k ∈ gone) (o + 1)) = c ↔
      ∀ r ∈ gone, (r ≤ o → kept gone r ≤ c) ∧ (o < r → c ≤ kept gone r) := by
  have hsum := kept_add_count gone (c + Nat.count (fun k => k ∈ gone) (o + 1))
  constructor
  · intro h r hr
    have hcount : Nat.count (fun k => k ∈ gone) (c + Nat.count (fun k => k ∈ gone) (o + 1))
        = Nat.count (fun k => k ∈ gone) (o + 1) := by omega
    have hiff := count_eq_count_iff.mp hcount r hr
    constructor
    · intro hle
      have hlt := hiff.mpr (lt_succ_of_le hle)
      rw [← h]
      exact kept_mono gone (Nat.le_of_lt hlt)
    · intro hlt
      have hle : c + Nat.count (fun k => k ∈ gone) (o + 1) ≤ r :=
        Nat.le_of_not_lt (fun hr' => Nat.not_lt.mpr (le_of_lt_succ (hiff.mp hr')) hlt)
      calc c = kept gone (c + Nat.count (fun k => k ∈ gone) (o + 1)) := h.symm
        _ ≤ kept gone r := kept_mono gone hle
  · intro h
    have hcount : Nat.count (fun k => k ∈ gone) (c + Nat.count (fun k => k ∈ gone) (o + 1))
        = Nat.count (fun k => k ∈ gone) (o + 1) := by
      refine count_eq_count_iff.mpr (fun r hr => ?_)
      have hr' := kept_add_count gone r
      constructor
      · intro hlt
        by_contra ho
        have hc := (h r hr).2 (Nat.lt_of_not_le (fun hle => ho (lt_succ_of_le hle)))
        have := count_monotone (fun k => k ∈ gone) (Nat.le_of_not_lt ho)
        omega
      · intro ho
        have hc := (h r hr).1 (Nat.lt_succ_iff.mp ho)
        have hlt : Nat.count (fun k => k ∈ gone) r < Nat.count (fun k => k ∈ gone) (o + 1) :=
          count_strict_mono hr ho
        omega
    omega

theorem offsetsInOrder_iff :
    OffsetsInOrder diff ↔ ∀ i ∈ diff.insertions, kept diff.removed (gap diff i) = kept diff.inserted i.1 := by
  unfold gap
  constructor
  · intro h i hi
    rw [adjustment_eq_count]
    exact kept_add_count_eq_iff.mpr (fun r hr => h r hr i.1 (mem_map_of_mem hi))
  · intro h r hr o ho
    obtain ⟨i, hi, rfl⟩ := mem_map.mp ho
    have hi' := h i hi
    rw [adjustment_eq_count] at hi'
    exact kept_add_count_eq_iff.mp hi' r hr

/-! ## One array -/

section Transforms

variable {old new : List (NWayMergeElement T)} (h : Transforms SameElement old new diff)

include h

theorem map_survivors : survivors diff.removed 0 (old.map NWayMergeElement.element)
    = survivors diff.inserted 0 (new.map NWayMergeElement.element) := by
  rw [survivors_map, survivors_map, ← forall₂_eq_eq_eq, forall₂_map_left_iff, forall₂_map_right_iff]
  exact h.kept

theorem gaps : Gaps 0 old.length (diff.insertions.map (gap diff)) where
  ascending := pairwise_map.mpr (diff.insertions_ascending.imp (fun {a b} hab => by
    have hkept := kept_mono diff.inserted (Nat.le_of_lt hab)
    have hcount := count_monotone (fun k => k ∈ diff.removed) (succ_le_succ (Nat.le_of_lt hab))
    rw [gap, gap, adjustment_eq_count, adjustment_eq_count]
    exact Nat.add_le_add hkept hcount))
  ge := fun _ _ => zero_le _
  le := by
    intro q hq
    obtain ⟨i, hmem, rfl⟩ := mem_map.mp hq
    have hlt := (List.getElem?_eq_some_iff.mp (h.inserted i hmem)).1
    have hkept := kept_mono diff.inserted (Nat.le_of_lt hlt)
    have hsurvivors := length_survivors_zero diff.inserted new
    have hsame := h.kept.length_eq
    have hold := h.length_old
    have hadj : adjustment diff i.1 ≤ diff.removals.length := length_filter_le _ _
    rw [gap]
    omega

theorem offset_gaps : Gaps 0 new.length (diff.insertions.map Prod.fst) where
  ascending := pairwise_map.mpr (diff.insertions_ascending.imp (fun hab => Nat.le_of_lt hab))
  ge := fun _ _ => zero_le _
  le := by
    intro q hq
    obtain ⟨i, hmem, rfl⟩ := mem_map.mp hq
    have hlt := (List.getElem?_eq_some_iff.mp (h.inserted i hmem)).1
    omega

end Transforms

/-- The elements at the offsets of the removals, without the array at `idx`. -/
def unmark (idx : Nat) (offsets : List Nat) (merged : List (NWayMergeElement T)) : List (NWayMergeElement T) :=
  merged.mapIdx (fun k e => if k ∈ offsets then { e with elementOf := e.elementOf.erase idx } else e)

variable {idx : Nat} {merged : List (NWayMergeElement T)} {array : List T}

theorem foldlM_removals {rs : List (Nat × NWayMergeElement T)} (h : ∀ r ∈ rs, r.1 < merged.length) :
    (rs.map (fun r => Change.remove r.1 r.2)).foldlM (applyChange diff idx) merged
      = some (unmark idx (rs.map Prod.fst) merged) := by
  induction rs generalizing merged with
  | nil =>
    refine congrArg some (ext_getElem? (fun k => ?_))
    rw [unmark, getElem?_mapIdx]
    cases merged[k]? with
    | none => rfl
    | some e => rfl
  | cons r rs ih =>
    have hr := h r mem_cons_self
    have hstep : applyChange diff idx merged (.remove r.1 r.2)
        = some (merged.set r.1 { merged[r.1] with elementOf := merged[r.1].elementOf.erase idx }) := by
      rw [applyChange, getElem?_eq_getElem hr]
    rw [map_cons, foldlM_cons, hstep, bind_eq_bind, bind_some, ih (fun r' hr' => by
      rw [length_set]
      exact h r' (mem_cons_of_mem _ hr'))]
    refine congrArg some (ext_getElem? (fun k => ?_))
    rw [unmark, unmark, getElem?_mapIdx, getElem?_mapIdx, getElem?_set, map_cons]
    by_cases hk : r.1 = k
    · subst hk
      rw [if_pos rfl, if_pos hr, getElem?_eq_getElem hr, map_some, map_some,
        if_pos mem_cons_self, Finset.erase_idem, ite_self]
    · have hmem : k ∈ r.1 :: rs.map Prod.fst ↔ k ∈ rs.map Prod.fst := by
        rw [mem_cons, or_iff_right (fun h' => hk h'.symm)]
      rw [if_neg hk]
      cases merged[k]? with
      | none => rfl
      | some e =>
        rw [map_some, map_some]
        simp only [hmem]

theorem foldlM_insertions (hgaps : Gaps 0 merged.length (diff.insertions.map (gap diff))) :
    (diff.insertions.map (fun i => Change.insert i.1 i.2)).foldlM (applyChange diff idx) merged
      = some (weave 0 (diff.insertions.map (fun i => (gap diff i, i.2))) merged) := by
  rw [foldlM_map]
  show diff.insertions.foldlM (fun merged i => insertAt merged (i.1 + adjustment diff i.1) i.2) ([] ++ merged)
    = some ([] ++ weave 0 (diff.insertions.map (fun i => (gap diff i, i.2))) merged)
  refine foldlM_insertAt hgaps ?_
  intro before i behind hsplit
  have hinserted : diff.inserted = before.map Prod.fst ++ i.1 :: behind.map Prod.fst := by
    rw [CollectionDifference.inserted, hsplit, map_append, map_cons]
  have hcount := count_mem_append_cons (hinserted ▸ diff.inserted_ascending)
  have hsum := kept_add_count diff.inserted i.1
  rw [← hinserted, length_map] at hcount
  rw [gap, length_nil]
  omega

variable {difference}

/-- The merge with one more array. -/
theorem mergeArray_eq (h : Transforms SameElement (mark idx merged) (next idx array) diff)
    (hdiff : difference (mark idx merged) (next idx array) = diff) :
    mergeArray difference merged (array, idx)
      = some (weave 0 (diff.insertions.map (fun i => (gap diff i, i.2)))
          (unmark idx diff.removed (mark idx merged))) := by
  have hremovals : (diff.removals.reverse.map (fun r => Change.remove r.1 r.2)).foldlM (applyChange diff idx)
      (mark idx merged) = some (unmark idx (diff.removals.reverse.map Prod.fst) (mark idx merged)) :=
    foldlM_removals (fun r hr => (List.getElem?_eq_some_iff.mp (h.removed r (mem_reverse.mp hr))).1)
  have hunmark : unmark idx (diff.removals.reverse.map Prod.fst) (mark idx merged)
      = unmark idx diff.removed (mark idx merged) := by
    unfold unmark CollectionDifference.removed
    simp only [map_reverse, mem_reverse]
  have hgaps : Gaps 0 (unmark idx diff.removed (mark idx merged)).length (diff.insertions.map (gap diff)) := by
    rw [unmark, length_mapIdx]
    exact gaps h
  show (changes (difference (mark idx merged) (next idx array))).foldlM
    (applyChange (difference (mark idx merged) (next idx array)) idx) (mark idx merged) = _
  rw [hdiff, changes, foldlM_append, hremovals, hunmark]
  exact foldlM_insertions hgaps

theorem elementOf_insertion {i : Nat × NWayMergeElement T} (h : (next idx array)[i.1]? = some i.2) :
    i.2.elementOf = {idx} ∧ array[i.1]? = some i.2.element := by
  rw [next, getElem?_map, map_eq_some_iff] at h
  obtain ⟨e, he, hi⟩ := h
  rw [← hi]
  exact ⟨rfl, he⟩

theorem mark_eq_mapIdx (idx : Nat) (merged : List (NWayMergeElement T)) :
    mark idx merged = merged.mapIdx (fun _ e => ⟨e.element, e.elementOf ∪ {idx}⟩) := by
  refine ext_getElem? (fun k => ?_)
  rw [mark, getElem?_map, getElem?_mapIdx]

theorem inputOf_mapIdx {j : Nat} {f : Nat → NWayMergeElement T → NWayMergeElement T}
    (h : ∀ k e, (j ∈ (f k e).elementOf ↔ j ∈ e.elementOf) ∧ (f k e).element = e.element) :
    inputOf j (merged.mapIdx f) = inputOf j merged := by
  induction merged generalizing f with
  | nil => rfl
  | cons e merged ih =>
    have ih' := ih (f := fun k => f (k + 1)) (fun k e => h (k + 1) e)
    rw [inputOf, inputOf] at ih' ⊢
    rw [mapIdx_cons, filter_cons, filter_cons]
    by_cases hj : j ∈ e.elementOf
    · rw [if_pos (decide_eq_true ((h 0 e).1.mpr hj)), if_pos (decide_eq_true hj), map_cons, map_cons, ih',
        (h 0 e).2]
    · rw [if_neg (fun hm => hj ((h 0 e).1.mp (of_decide_eq_true hm))), if_neg (fun hm => hj (of_decide_eq_true hm)),
        ih']

/-- The other arrays are read as before. -/
theorem inputOf_weave_of_ne {j : Nat} (hj : j ≠ idx)
    (h : Transforms SameElement (mark idx merged) (next idx array) diff) :
    inputOf j (weave 0 (diff.insertions.map (fun i => (gap diff i, i.2))) (unmark idx diff.removed (mark idx merged)))
      = inputOf j merged := by
  have hinserted : ∀ i ∈ diff.insertions.map (fun i => (gap diff i, i.2)),
      decide (j ∈ i.2.elementOf) = false := by
    intro i hi
    obtain ⟨i, hmem, rfl⟩ := mem_map.mp hi
    rw [decide_eq_false_iff_not, (elementOf_insertion (h.inserted i hmem)).1, Finset.mem_singleton]
    exact hj
  have hmark : inputOf j (mark idx merged) = inputOf j merged := by
    rw [mark_eq_mapIdx]
    refine inputOf_mapIdx (fun _ e => ⟨?_, rfl⟩)
    rw [Finset.mem_union, Finset.mem_singleton, or_iff_left hj]
  rw [inputOf, filter_weave_of_not hinserted, ← hmark]
  refine inputOf_mapIdx (fun k e => ?_)
  by_cases hk : k ∈ diff.removed
  · rw [if_pos hk, Finset.mem_erase, and_iff_right hj]
    exact ⟨Iff.rfl, rfl⟩
  · rw [if_neg hk]
    exact ⟨Iff.rfl, rfl⟩

theorem map_unmark (idx : Nat) (offsets : List Nat) (merged : List (NWayMergeElement T)) :
    (unmark idx offsets merged).map NWayMergeElement.element = merged.map NWayMergeElement.element := by
  refine ext_getElem? (fun k => ?_)
  rw [unmark, List.getElem?_map, List.getElem?_map, List.getElem?_mapIdx, Option.map_map]
  refine congrArg (fun f => Option.map f merged[k]?) (funext (fun e => ?_))
  show NWayMergeElement.element (if k ∈ offsets then _ else e) = e.element
  by_cases hk : k ∈ offsets
  · rw [if_pos hk]
  · rw [if_neg hk]

/-- What is kept is in the array. -/
theorem mem_unmark_iff {k : Nat} {offsets : List Nat} {x : NWayMergeElement T}
    (h : (unmark idx offsets (mark idx merged))[k]? = some x) : idx ∈ x.elementOf ↔ k ∉ offsets := by
  rw [unmark, List.getElem?_mapIdx, mark, List.getElem?_map, Option.map_map, Option.map_eq_some_iff] at h
  obtain ⟨e, -, rfl⟩ := h
  show idx ∈ NWayMergeElement.elementOf (if k ∈ offsets then _ else _) ↔ _
  by_cases hk : k ∈ offsets
  · rw [if_pos hk]
    exact iff_of_false (Finset.notMem_erase idx _) (not_not.mpr hk)
  · rw [if_neg hk]
    exact iff_of_true (Finset.mem_union_right _ (Finset.mem_singleton_self idx)) hk

section

variable (h : Transforms SameElement (mark idx merged) (next idx array) diff)
include h

/-- The array itself is read with its inserted elements where they were put. -/
theorem inputOf_weave_self :
    inputOf idx (weave 0 (diff.insertions.map (fun i => (gap diff i, i.2))) (unmark idx diff.removed (mark idx merged)))
      = weave 0 (diff.insertions.map (fun i => (kept diff.removed (gap diff i), i.2.element)))
          (survivors diff.inserted 0 array) := by
  have hgaps : Gaps 0 (unmark idx diff.removed (mark idx merged)).length
      ((diff.insertions.map (fun i => (gap diff i, i.2))).map Prod.fst) := by
    rw [unmark, length_mapIdx, map_map]
    exact gaps h
  have hinserted : ∀ i ∈ diff.insertions.map (fun i => (gap diff i, i.2)),
      decide (idx ∈ i.2.elementOf) = true := by
    intro i hi
    obtain ⟨i, hmem, rfl⟩ := mem_map.mp hi
    rw [decide_eq_true_iff, (elementOf_insertion (h.inserted i hmem)).1]
    exact Finset.mem_singleton_self idx
  have hsurvivors : (unmark idx diff.removed (mark idx merged)).filter (fun e => decide (idx ∈ e.elementOf))
      = survivors diff.removed 0 (unmark idx diff.removed (mark idx merged)) :=
    filter_eq_survivors (fun k x hx => by rw [decide_eq_true_iff, mem_unmark_iff hx, Nat.zero_add])
  have hcount : ∀ n ≤ (unmark idx diff.removed (mark idx merged)).length,
      kept diff.removed (0 + n) = kept diff.removed 0
        + (((unmark idx diff.removed (mark idx merged)).take n).filter (fun e => decide (idx ∈ e.elementOf))).length := by
    intro n hn
    have hlen := length_survivors diff.removed 0 ((unmark idx diff.removed (mark idx merged)).take n)
    rw [length_take, Nat.min_eq_left hn] at hlen
    rw [← hlen]
    refine congrArg (fun l => kept diff.removed 0 + List.length l) (filter_eq_survivors (fun k x hx => ?_)).symm
    have hk : k < n := by
      by_contra hk
      rw [getElem?_take, if_neg hk] at hx
      cases hx
    rw [getElem?_take_of_lt hk] at hx
    rw [decide_eq_true_iff, mem_unmark_iff hx, Nat.zero_add]
  have hnext : (next idx array).map NWayMergeElement.element = array := by
    rw [next, map_map]
    exact map_id array
  rw [inputOf, filter_weave hgaps hinserted hcount, kept_zero, weave_map, hsurvivors, ← survivors_map, map_unmark,
    map_survivors h, hnext, map_map, map_map]
  rfl

/-- An array is read as it is when offsets are in order, and only then where no element occurs twice. -/
theorem inputOf_weave_eq_iff :
    (OffsetsInOrder diff → inputOf idx (weave 0 (diff.insertions.map (fun i => (gap diff i, i.2)))
      (unmark idx diff.removed (mark idx merged))) = array) ∧
    (array.Nodup → inputOf idx (weave 0 (diff.insertions.map (fun i => (gap diff i, i.2)))
      (unmark idx diff.removed (mark idx merged))) = array → OffsetsInOrder diff) := by
  have harray : weave 0 (diff.insertions.map (fun i => (kept diff.inserted i.1, i.2.element)))
      (survivors diff.inserted 0 array) = array := by
    have hascending : (diff.insertions.map (fun i => (i.1, i.2.element))).Pairwise (fun a b => a.1 < b.1) :=
      pairwise_map.mpr diff.insertions_ascending
    have hget : ∀ i ∈ diff.insertions.map (fun i => (i.1, i.2.element)), 0 ≤ i.1 ∧ array[i.1 - 0]? = some i.2 := by
      intro i hi
      obtain ⟨i, hmem, rfl⟩ := mem_map.mp hi
      exact ⟨zero_le _, (elementOf_insertion (h.inserted i hmem)).2⟩
    have hoffsets : (diff.insertions.map (fun i => (i.1, i.2.element))).map Prod.fst = diff.inserted := map_map
    have hweave := weave_survivors hascending hget (fun k _ => by rw [hoffsets])
    rwa [kept_zero, map_map] at hweave
  rw [inputOf_weave_self h]
  constructor
  · intro horder
    conv_rhs => rw [← harray]
    refine congrArg (fun ins => weave 0 ins _) (map_congr_left (fun i hi => ?_))
    rw [offsetsInOrder_iff.mp horder i hi]
  · intro hnodup hread
    refine offsetsInOrder_iff.mpr ?_
    have hlen : kept diff.removed (mark idx merged).length = (survivors diff.inserted 0 array).length := by
      have hsame := h.kept.length_eq
      rw [length_survivors_zero, length_survivors_zero, next, length_map] at hsame
      rw [hsame, length_survivors_zero]
    have hput := (gaps h).map (kept_mono diff.removed) (Nat.le_of_eq hlen)
    have hbelong := (offset_gaps h).map (kept_mono diff.inserted) (Nat.le_refl _)
    rw [map_map] at hput hbelong
    rw [next, length_map, ← length_survivors_zero] at hbelong
    refine weave_injOn hput hbelong ?_ (hread.trans harray.symm)
    rw [hread]
    exact hnodup

end

/-! ## All arrays -/

theorem nWayMerge_cons (array : List T) (arrays : List (List T)) :
    nWayMerge difference (array :: arrays) = (arrays.zipIdx 1).foldlM (mergeArray difference) (next 0 array) := by
  cases arrays with
  | nil => rfl
  | cons array' arrays => rfl

theorem nWayMerge_concat {arrays : List (List T)} (h : arrays ≠ []) (array : List T) :
    nWayMerge difference (arrays ++ [array])
      = (nWayMerge difference arrays).bind (fun merged => mergeArray difference merged (array, arrays.length)) := by
  obtain ⟨first, rest, rfl⟩ := exists_cons_of_ne_nil h
  rw [cons_append, nWayMerge_cons, nWayMerge_cons, zipIdx_append, foldlM_append, length_cons,
    Nat.add_comm rest.length]
  refine congrArg (Option.bind _) (funext (fun merged => ?_))
  show List.foldlM _ _ [(array, 1 + rest.length)] = _
  rw [foldlM_cons]
  exact bind_pure _

theorem inputOf_next (array : List T) : inputOf 0 (next 0 array) = array := by
  rw [inputOf, next, filter_eq_self.mpr (fun e he => ?_), map_map]
  · exact map_id array
  · obtain ⟨x, -, rfl⟩ := mem_map.mp he
    exact decide_eq_true (Finset.mem_singleton_self 0)

/-- Offsets are in order in the difference that the array at `i` is merged by. The first array is merged by none. -/
def InOrderAt (difference : List (NWayMergeElement T) → List (NWayMergeElement T) →
    CollectionDifference (NWayMergeElement T)) (arrays : List (List T)) (i : Nat) (hi : i < arrays.length) : Prop :=
  0 < i → ∀ before, nWayMerge difference (arrays.take i) = some before →
    OffsetsInOrder (difference (mark i before) (next i arrays[i]))

/-- **The merge holds an array**, in order, if offsets compare as numbers of kept elements when it is merged; and one
    without repeated elements only then. -/
theorem nWayMerge_iff (hdifference : ∀ old new, Transforms SameElement old new (difference old new))
    (arrays : List (List T)) :
    ∃ merged, nWayMerge difference arrays = some merged ∧
      ∀ i (hi : i < arrays.length),
        (InOrderAt difference arrays i hi → inputOf i merged = arrays[i]) ∧
        (arrays[i].Nodup → (inputOf i merged = arrays[i] ↔ InOrderAt difference arrays i hi)) := by
  induction arrays using List.reverseRecOn with
  | nil => exact ⟨[], rfl, fun i hi => nomatch hi⟩
  | append_singleton arrays array ih =>
    by_cases hempty : arrays = []
    · subst hempty
      refine ⟨next 0 array, rfl, fun i hi => ?_⟩
      obtain rfl : i = 0 := lt_one_iff.mp hi
      exact ⟨fun _ => inputOf_next array, fun _ => iff_of_true (inputOf_next array) (fun h => nomatch h)⟩
    · obtain ⟨before, hbefore, hread⟩ := ih
      have htransforms := hdifference (mark arrays.length before) (next arrays.length array)
      refine ⟨_, by rw [nWayMerge_concat hempty, hbefore, bind_some, mergeArray_eq htransforms rfl],
        fun i hi => ?_⟩
      rcases Nat.lt_or_ge i arrays.length with hlt | hge
      · unfold InOrderAt
        rw [inputOf_weave_of_ne (Nat.ne_of_lt hlt) htransforms, getElem_append_left hlt,
          take_append_of_le_length (Nat.le_of_lt hlt)]
        exact hread i hlt
      · have hlength : i = arrays.length := by
          rw [length_append, length_singleton] at hi
          omega
        subst hlength
        have horder : InOrderAt difference (arrays ++ [array]) arrays.length hi ↔
            OffsetsInOrder (difference (mark arrays.length before) (next arrays.length array)) := by
          unfold InOrderAt
          rw [getElem_concat_length rfl, take_left]
          constructor
          · intro h
            exact h (length_pos_iff.mpr hempty) before hbefore
          · intro h _ before' hbefore'
            rw [hbefore, some_inj] at hbefore'
            rw [← hbefore']
            exact h
        obtain ⟨hof, honly⟩ := inputOf_weave_eq_iff htransforms
        rw [horder, getElem_concat_length rfl]
        exact ⟨hof, fun hnodup => ⟨honly hnodup, hof⟩⟩

/-- What is removed and inserted again is read where it was, twice merged. -/
theorem nWayMerge_iff_replaceAll : ∃ merged, nWayMerge replaceAll [[1, 2], [2, 3, 2]] = some merged ∧
    inputOf 1 merged = [2, 3, 2] := by
  obtain ⟨merged, hmerged, hread⟩ := nWayMerge_iff
    (fun old new => replaceAll_transforms SameElement old new) [[1, 2], [2, 3, 2]]
  refine ⟨merged, hmerged, (hread 1 (by decide)).1 fun _ before hbefore => ?_⟩
  cases hbefore
  unfold OffsetsInOrder
  decide

/-- Of `[3, 4]` only `3` is in `[1, 2, 3]`. -/
def twoInserted : CollectionDifference (NWayMergeElement Nat) where
  removals := [(1, ⟨4, {0, 1}⟩)]
  insertions := [(0, ⟨1, {1}⟩), (1, ⟨2, {1}⟩)]
  removals_ascending := by decide
  insertions_ascending := by decide

theorem twoInserted_minimal :
    Minimal SameElement (mark 1 (next 0 [3, 4])) (next 1 [1, 2, 3]) twoInserted where
  transforms :=
    { removed := by decide
      inserted := by decide
      kept := List.Forall₂.cons rfl List.Forall₂.nil }
  least := by
    intro d hd
    have hold := hd.length_old
    have hnew := hd.length_new
    have hsame := hd.kept.length_eq
    change _ = 2 at hold
    change _ = 3 at hnew
    have hremovals : d.removals ≠ [] := by
      intro hnil
      have hkept := map_survivors hd
      rw [CollectionDifference.removed, hnil] at hkept
      have hmem : 4 ∈ survivors d.inserted 0 ((next 1 [1, 2, 3]).map NWayMergeElement.element) := by
        rw [← hkept]
        decide
      have hmem' := (survivors_sublist 0 _).subset hmem
      revert hmem'
      decide
    have hpos := length_pos_iff.mpr hremovals
    show 3 ≤ d.removals.length + d.insertions.length
    omega

/-- `2` is put behind `3`, one removed offset at or below its own being that of an element that stands behind it. -/
theorem twoInserted_not_merged : ¬ ∀ difference : List (NWayMergeElement Nat) → List (NWayMergeElement Nat) →
      CollectionDifference (NWayMergeElement Nat),
    (∀ old new, Minimal SameElement old new (difference old new)) → ∀ arrays : List (List Nat),
      ∃ merged, nWayMerge difference arrays = some merged ∧
        ∀ i (hi : i < arrays.length), inputOf i merged = arrays[i] := by
  intro h
  obtain ⟨difference, hminimal, hd⟩ := exists_minimal_difference twoInserted_minimal
  obtain ⟨merged, hmerged, hread⟩ := h difference hminimal [[3, 4], [1, 2, 3]]
  have hmerge : nWayMerge difference [[3, 4], [1, 2, 3]] = some _ :=
    (nWayMerge_concat (cons_ne_nil [3, 4] []) [1, 2, 3]).trans (mergeArray_eq twoInserted_minimal.transforms hd)
  rw [hmerged, some_inj] at hmerge
  have hread1 := hread 1 (by decide)
  rw [hmerge] at hread1
  revert hread1
  decide

end NWayMerge

end Builra
