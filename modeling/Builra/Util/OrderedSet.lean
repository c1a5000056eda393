import Builra.Lib.Positions

namespace Builra

open List
open Option hiding filter_filter

/-!
# `Util.OrderedSet` — ordered collections of distinct elements

The array of the elements in the order they were added; no two of them are equal. The dictionary
`uniqueIndices` is what `firstIndex` computes from the array.
-/

structure OrderedSet (Element : Type) [BEq Element] where
  elements : List Element
  unique : elements.Pairwise (fun a b => (a == b) = false)

namespace OrderedSet

variable {Element : Type} [BEq Element]

/-- Creates an empty ordered set. -/
def empty : OrderedSet Element := ⟨[], .nil⟩

/-- `firstIndex(of:)` -/
def firstIndex (s : OrderedSet Element) (element : Element) : Option Nat :=
  s.elements.findIdx? (fun e => e == element)

def contains (s : OrderedSet Element) (member : Element) : Bool := (s.firstIndex member).isSome

variable {s : OrderedSet Element} {x : Element} {sequence : List Element}

theorem firstIndex_eq_none {element : Element} :
    s.firstIndex element = none ↔ ∀ e ∈ s.elements, (e == element) = false := by
  rw [firstIndex, findIdx?_eq_none_iff]

/-- `append(_:)`: whether the element was inserted, and its index. -/
def append (s : OrderedSet Element) (newElement : Element) : (Bool × Nat) × OrderedSet Element :=
  match h : s.firstIndex newElement with
  | some existingIndex => ((false, existingIndex), s)
  | none =>
    ((true, s.elements.length),
      ⟨s.elements ++ [newElement], pairwise_append.mpr
        ⟨s.unique, pairwise_singleton _ _, fun a ha b hb => by
          rw [mem_singleton.mp hb]
          exact firstIndex_eq_none.mp h a ha⟩⟩)

/-- `append(contentsOf:)` -/
def appendContents (s : OrderedSet Element) (sequence : List Element) : OrderedSet Element :=
  sequence.foldl (fun s element => (s.append element).2) s

/-- `removeLast()`; the array is not empty. -/
def removeLast (s : OrderedSet Element) : Option (Element × OrderedSet Element) :=
  s.elements.getLast?.map (fun lastElement =>
    (lastElement, ⟨s.elements.dropLast, List.Pairwise.sublist (dropLast_sublist _) s.unique⟩))

/-- The element that is inserted is different from all others. -/
theorem unique_insertIdx [EquivBEq Element] {newElement : Element} (h : s.firstIndex newElement = none) (i : Nat) :
    (s.elements.insertIdx i newElement).Pairwise (fun a b => (a == b) = false) := by
  by_cases hi : i ≤ s.elements.length
  · have hnew := firstIndex_eq_none.mp h
    refine ((perm_insertIdx newElement s.elements hi).pairwise_iff (fun hab => ?_)).mpr
      (pairwise_cons.mpr ⟨fun e he => ?_, s.unique⟩)
    · rw [BEq.comm]
      exact hab
    · rw [BEq.comm]
      exact hnew e he
  · rw [insertIdx_of_length_lt (Nat.lt_of_not_le hi)]
    exact s.unique

/-- `insert(_:at:)`; none when the index is out of range. -/
def insert [EquivBEq Element] (s : OrderedSet Element) (newElement : Element) (i : Nat) :
    Option ((Bool × Nat) × OrderedSet Element) :=
  match h : s.firstIndex newElement with
  | some existingIndex => some ((false, existingIndex), s)
  | none =>
    if i ≤ s.elements.length then
      some ((true, i), ⟨s.elements.insertIdx i newElement, unique_insertIdx h i⟩)
    else none

/-- `remove(at:)`; none when the index is out of range. -/
def remove (s : OrderedSet Element) (index : Nat) : Option (Element × OrderedSet Element) :=
  s.elements[index]?.map (fun removedElement =>
    (removedElement, ⟨s.elements.eraseIdx index, s.unique.sublist (eraseIdx_sublist _ _)⟩))

theorem ext_elements {s' : OrderedSet Element} (h : s.elements = s'.elements) : s = s' := by
  cases s
  cases s'
  simpa using h

theorem append_of_contains (h : s.contains x = true) :
    (s.append x).1.1 = false ∧ (s.append x).2 = s := by
  obtain ⟨i, hi⟩ := isSome_iff_exists.mp h
  unfold append
  split
  · exact ⟨rfl, rfl⟩
  · rename_i hnone
    rw [hi] at hnone
    exact absurd hnone (by simp)

theorem append_of_not_contains (h : s.contains x = false) :
    (s.append x).1.1 = true ∧ (s.append x).2.elements = s.elements ++ [x] := by
  have hnone : s.firstIndex x = none := by simpa [contains] using h
  unfold append
  split
  · rename_i i hi
    rw [hnone] at hi
    exact absurd hi (by simp)
  · exact ⟨rfl, rfl⟩

theorem append_removeLast (h : s.contains x = false) :
    (s.append x).2.removeLast = some (x, s) := by
  obtain ⟨-, helems⟩ := append_of_not_contains h
  have hlast : (s.append x).2.elements.getLast? = some x := by simp [helems]
  rw [removeLast, hlast, map_some]
  refine congrArg some (Prod.ext rfl (ext_elements ?_))
  simp [helems]

theorem insert_of_contains [EquivBEq Element] (h : s.contains x = true) (i : Nat) :
    ∃ returned, s.insert x i = some (returned, s) := by
  obtain ⟨j, hj⟩ := isSome_iff_exists.mp h
  unfold insert
  split
  · exact ⟨_, rfl⟩
  · rename_i hnone
    rw [hj] at hnone
    cases hnone

theorem insert_of_not_contains [EquivBEq Element] {before behind : List Element} (h : s.contains x = false)
    (hs : s.elements = before ++ behind) :
    ∃ returned s', s.insert x before.length = some (returned, s') ∧ s'.elements = before ++ x :: behind := by
  have hnone : s.firstIndex x = none := by
    rw [contains, isSome_eq_false_iff, isNone_iff_eq_none] at h
    exact h
  unfold insert
  split
  · rename_i i hi
    rw [hnone] at hi
    cases hi
  · rw [if_pos (by rw [hs, length_append]; omega)]
    refine ⟨_, _, rfl, ?_⟩
    show s.elements.insertIdx before.length x = before ++ x :: behind
    rw [hs, Positions.insertIdx_length]

theorem remove_length {before behind : List Element} (hs : s.elements = before ++ x :: behind) :
    ∃ s', s.remove before.length = some (x, s') ∧ s'.elements = before ++ behind := by
  have hget : s.elements[before.length]? = some x := by rw [hs, Positions.getElem?_length]
  unfold remove
  rw [hget]
  refine ⟨_, rfl, ?_⟩
  show s.elements.eraseIdx before.length = before ++ behind
  rw [hs, Positions.eraseIdx_length]

section Lawful

variable [LawfulBEq Element]

theorem contains_iff {s : OrderedSet Element} {x : Element} : s.contains x = true ↔ x ∈ s.elements := by
  rw [contains, ← not_iff_not, Bool.not_eq_true, isSome_eq_false_iff, isNone_iff_eq_none,
    firstIndex_eq_none]
  constructor
  · intro h hx
    exact absurd (h x hx) (by simp)
  · intro h e he
    rw [beq_eq_false_iff_ne]
    rintro rfl
    exact h he

theorem nodup (s : OrderedSet Element) : s.elements.Nodup :=
  s.unique.imp (fun h => by simpa using h)

end Lawful

/-- The elements that are added are the distinct ones that are not in the set yet, in order. -/
theorem elements_appendContents [EquivBEq Element] (sequence : List Element) :
    ∀ s : OrderedSet Element, (s.appendContents sequence).elements =
      s.elements ++ (sequence.filter (fun x => !s.contains x)).eraseDups := by
  induction sequence with
  | nil => simp [appendContents]
  | cons x rest ih =>
    intro s
    have hstep : s.appendContents (x :: rest) = (s.append x).2.appendContents rest := rfl
    rw [hstep, ih]
    cases hx : s.contains x with
    | true => simp [append_of_contains hx, hx]
    | false =>
      obtain ⟨-, helems⟩ := append_of_not_contains hx
      rw [helems, filter_cons_of_pos (by simp [hx]), eraseDups_cons, filter_filter]
      simp only [append_assoc, singleton_append]
      congr 3
      refine filter_congr (fun y _ => ?_)
      -- a later element is new if it is neither `x` nor in the set
      rw [Bool.eq_iff_iff]
      simp only [Bool.not_eq_eq_eq_not, Bool.not_true, Bool.and_eq_true, contains,
        isSome_eq_false_iff, isNone_iff_eq_none, firstIndex_eq_none, helems]
      constructor
      · intro h
        refine ⟨?_, fun e he => h e (mem_append_left _ he)⟩
        rw [BEq.comm]
        exact h x (mem_append_right _ (mem_singleton_self x))
      · rintro ⟨hyx, h⟩ e he
        rcases mem_append.mp he with he | he
        · exact h e he
        · rw [mem_singleton.mp he, BEq.comm]
          exact hyx

/-- Nothing else is added. -/
theorem mem_of_mem_appendContents (h : x ∈ (s.appendContents sequence).elements) : x ∈ s.elements ∨ x ∈ sequence := by
  induction sequence generalizing s with
  | nil => exact .inl h
  | cons y rest ih =>
    have hstep : x ∈ ((s.append y).2.appendContents rest).elements := h
    rcases ih hstep with hs | hrest
    · cases hy : s.contains y with
      | true =>
        rw [(append_of_contains hy).2] at hs
        exact .inl hs
      | false =>
        rw [(append_of_not_contains hy).2] at hs
        rcases mem_append.mp hs with hs | hs
        · exact .inl hs
        · exact .inr (mem_cons.mpr (.inl (mem_singleton.mp hs)))
    · exact .inr (mem_cons_of_mem _ hrest)

theorem mem_appendContents [LawfulBEq Element] :
    x ∈ (s.appendContents sequence).elements ↔ x ∈ s.elements ∨ x ∈ sequence := by
  refine ⟨mem_of_mem_appendContents, fun h => ?_⟩
  induction sequence generalizing s with
  | nil => exact h.resolve_right not_mem_nil
  | cons y rest ih =>
    refine (show x ∈ ((s.append y).2.appendContents rest).elements from ih ?_)
    rw [mem_cons] at h
    cases hy : s.contains y with
    | true =>
      rw [(append_of_contains hy).2]
      rcases h with hs | rfl | hrest
      · exact .inl hs
      · exact .inl (contains_iff.mp hy)
      · exact .inr hrest
    | false =>
      rw [(append_of_not_contains hy).2, mem_append, mem_singleton]
      rcases h with hs | hy' | hrest
      · exact .inl (.inl hs)
      · exact .inl (.inr hy')
      · exact .inr hrest

/-- Different elements are all added. -/
theorem appendContents_of_pairwise (h : (s.elements ++ sequence).Pairwise (fun a b => (a == b) = false)) :
    (s.appendContents sequence).elements = s.elements ++ sequence := by
  induction sequence generalizing s with
  | nil => exact (append_nil _).symm
  | cons x rest ih =>
    have hnew : s.contains x = false := by
      rw [contains, isSome_eq_false_iff, isNone_iff_eq_none, firstIndex_eq_none]
      exact fun e he => (pairwise_append.mp h).2.2 e he x mem_cons_self
    obtain ⟨-, helements⟩ := append_of_not_contains hnew
    have hassoc : s.elements ++ x :: rest = (s.append x).2.elements ++ rest := by
      rw [helements, append_assoc]
      rfl
    rw [hassoc] at h ⊢
    exact ih h

end OrderedSet

end Builra
