import Builra.Util.OrderedSet
import Mathlib.Data.List.Sort

namespace Builra

open List Bool
open Option hiding filter_map sequence some

/-!
# `Util.OrderedSetStorage` — how an ordered set is stored

The array of the elements, and beside it a dictionary with their positions. An operation that traps gives `none`.
-/

structure OrderedSetStorage (Element : Type) where
  array : List Element := []
  uniqueIndices : Element → Option Nat := fun _ => none

namespace OrderedSetStorage

variable {Element : Type} [BEq Element]

/-! ## The source -/

variable (indices : Element → Option Nat)

/-- The dictionary with a value for a key; equal keys have the same value. -/
def set (key : Element) (value : Option Nat) : Element → Option Nat :=
  fun e => if key == e then value else indices e

def updateIndices (s : OrderedSetStorage Element) (startIndex : Nat) : OrderedSetStorage Element :=
  { s with
    uniqueIndices := (s.array.drop startIndex).zipIdx.foldl
      (fun indices (element, index) => set indices element (some (index + startIndex))) s.uniqueIndices }

def firstIndex (s : OrderedSetStorage Element) (element : Element) : Option Nat := s.uniqueIndices element

def contains (s : OrderedSetStorage Element) (member : Element) : Bool := (s.uniqueIndices member).isSome

/-- Whether the element was inserted, and its index. -/
def insert (s : OrderedSetStorage Element) (newElement : Element) (i : Nat) :
    Option ((Bool × Nat) × OrderedSetStorage Element) :=
  match s.firstIndex newElement with
  | some existingIndex => some ((false, existingIndex), s)
  | none =>
    if i ≤ s.array.length then
      some ((true, i), updateIndices { s with array := s.array.insertIdx i newElement } i)
    else none

def append (s : OrderedSetStorage Element) (newElement : Element) :
    Option ((Bool × Nat) × OrderedSetStorage Element) :=
  s.insert newElement s.array.length

def appendContents (s : OrderedSetStorage Element) (sequence : List Element) : Option (OrderedSetStorage Element) :=
  sequence.foldlM (fun s element => (s.append element).map Prod.snd) s

/-- Remove and return the element at an index. -/
def remove (s : OrderedSetStorage Element) (index : Nat) : Option (Element × OrderedSetStorage Element) := do
  let removedElement ← s.array[index]?
  let uniqueIndices := set s.uniqueIndices removedElement none
  some (removedElement, updateIndices { array := s.array.eraseIdx index, uniqueIndices } index)

/-- Remove and return the element at the end. -/
def removeLast (s : OrderedSetStorage Element) : Option (Element × OrderedSetStorage Element) := do
  let lastElement ← s.array.getLast?
  some (lastElement, { array := s.array.dropLast, uniqueIndices := set s.uniqueIndices lastElement none })

/-- `other.compactMap { uniqueIndices.removeValue(forKey: $0) }` -/
def removeValues (other : List Element) : List Nat × (Element → Option Nat) :=
  other.foldl (fun (removed, indices) key => (removed ++ (indices key).toList, set indices key none)) ([], indices)

/-- Remove the elements of another sequence. -/
def subtract (s : OrderedSetStorage Element) (other : List Element) : Option (OrderedSetStorage Element) := do
  let (removed, uniqueIndices) := removeValues s.uniqueIndices other
  let removeIndices := removed.mergeSort
  let array ← removeIndices.reverse.foldlM
    (fun array index => if index < array.length then some (array.eraseIdx index) else none) s.array
  match removeIndices.head? with
  | some firstIndex => some (updateIndices { array, uniqueIndices } firstIndex)
  | none => some { array, uniqueIndices }

def removeAll : OrderedSetStorage Element := {}

/-- Creates an ordered set with the elements of a sequence, each once. -/
def ofSequence (sequence : List Element) : Option (OrderedSetStorage Element) :=
  appendContents {} sequence

/-! ## Sequences of operations -/

inductive Operation (Element : Type) where
  | append (newElement : Element)
  | appendContents (sequence : List Element)
  | insert (newElement : Element) (i : Nat)
  | remove (index : Nat)
  | removeLast
  | subtract (other : List Element)
  | removeAll
  | firstIndex (element : Element)
  | contains (member : Element)

inductive Returned (Element : Type) where
  | nothing
  | inserted (inserted : Bool) (index : Nat)
  | element (element : Element)
  | index (index : Option Nat)
  | bool (b : Bool)

def step (s : OrderedSetStorage Element) :
    Operation Element → Option (Returned Element × OrderedSetStorage Element)
  | .append newElement => (s.append newElement).map (fun ((inserted, index), s) => (.inserted inserted index, s))
  | .appendContents sequence => (s.appendContents sequence).map (fun s => (.nothing, s))
  | .insert newElement i => (s.insert newElement i).map (fun ((inserted, index), s) => (.inserted inserted index, s))
  | .remove index => (s.remove index).map (fun (element, s) => (.element element, s))
  | .removeLast => s.removeLast.map (fun (element, s) => (.element element, s))
  | .subtract other => (s.subtract other).map (fun s => (.nothing, s))
  | .removeAll => some (.nothing, removeAll)
  | .firstIndex element => some (.index (s.firstIndex element), s)
  | .contains member => some (.bool (s.contains member), s)

def run (s : OrderedSetStorage Element) :
    List (Operation Element) → Option (List (Returned Element) × OrderedSetStorage Element)
  | [] => some ([], s)
  | operation :: operations => do
    let (returned, s) ← s.step operation
    let (rest, s) ← s.run operations
    some (returned :: rest, s)

/-! ## The plain list -/

/-- The position of the element of a list. -/
def position (l : List Element) (element : Element) : Option Nat := l.findIdx? (fun e => e == element)

/-- Insert an element that is not there. -/
def listInsert (l : List Element) (newElement : Element) (i : Nat) : Option ((Bool × Nat) × List Element) :=
  match position l newElement with
  | some existingIndex => some ((false, existingIndex), l)
  | none => if i ≤ l.length then some ((true, i), l.insertIdx i newElement) else none

def listAppendContents (l : List Element) (sequence : List Element) : List Element :=
  sequence.foldl (fun l element => if (position l element).isSome then l else l ++ [element]) l

/-- The operation on a list. -/
def listStep (l : List Element) : Operation Element → Option (Returned Element × List Element)
  | .append newElement =>
    (listInsert l newElement l.length).map (fun ((inserted, index), l) => (.inserted inserted index, l))
  | .appendContents sequence => some (.nothing, listAppendContents l sequence)
  | .insert newElement i =>
    (listInsert l newElement i).map (fun ((inserted, index), l) => (.inserted inserted index, l))
  | .remove index => l[index]?.map (fun element => (.element element, l.eraseIdx index))
  | .removeLast => l.getLast?.map (fun element => (.element element, l.dropLast))
  | .subtract other => some (.nothing, l.filter (fun e => !other.any (fun x => x == e)))
  | .removeAll => some (.nothing, [])
  | .firstIndex element => some (.index (position l element), l)
  | .contains member => some (.bool (l.any (fun e => e == member)), l)

def listRun (l : List Element) : List (Operation Element) → Option (List (Returned Element) × List Element)
  | [] => some ([], l)
  | operation :: operations => do
    let (returned, l) ← listStep l operation
    let (rest, l) ← listRun l operations
    some (returned :: rest, l)

/-- No two elements are equal, and the dictionary has their positions and nothing else. -/
structure Coherent (s : OrderedSetStorage Element) : Prop where
  distinct : s.array.Pairwise (fun a b => (a == b) = false)
  positions : ∀ e, s.uniqueIndices e = position s.array e

section

variable {s : OrderedSetStorage Element} {l l₁ l₂ : List Element} {e x : Element}

/-! ## Positions -/

theorem position_eq_none : position l e = none ↔ ∀ x ∈ l, (x == e) = false := findIdx?_eq_none_iff

theorem isSome_position : (position l e).isSome = l.any (fun x => x == e) := findIdx?_isSome

theorem position_append : position (l₁ ++ l₂) e = (position l₁ e).or ((position l₂ e).map (fun i => i + l₁.length)) :=
  findIdx?_append

theorem position_append_left (h : position l₂ e = none) : position (l₁ ++ l₂) e = position l₁ e := by
  rw [position_append, h, map_none, or_none]

theorem position_append_right (h : position l₁ e = none) :
    position (l₁ ++ l₂) e = (position l₂ e).map (fun i => i + l₁.length) := by
  rw [position_append, h, none_or]

theorem position_cons_of_not (h : (x == e) = false) :
    position (x :: l) e = (position l e).map (fun i => i + 1) := by
  unfold position
  rw [findIdx?_cons, h]
  rfl

theorem position_cons_of_beq (h : (x == e) = true) : position (x :: l) e = some 0 := by
  unfold position
  rw [findIdx?_cons, h]
  rfl

theorem position_eq_none_of_cons (h : position (x :: l) e = none) : (x == e) = false ∧ position l e = none := by
  rw [position_eq_none] at h
  exact ⟨h x mem_cons_self, position_eq_none.mpr (fun y hy => h y (mem_cons_of_mem _ hy))⟩

variable {i : Nat} {p : Element → Bool}

theorem position_eq_some (h : position l e = some i) : ∃ y, l[i]? = some y ∧ (y == e) = true := by
  obtain ⟨hi, hy, -⟩ := findIdx?_eq_some_iff_getElem.mp h
  exact ⟨l[i], getElem?_eq_getElem hi, hy⟩

variable [EquivBEq Element]

theorem position_congr {e' : Element} (h : (e == e') = true) : position l e = position l e' := by
  unfold position
  congr 1
  funext x
  exact BEq.congr_right h

/-- In a list of different elements, what equals one of them equals none of the others. -/
theorem position_eq_none_of_distinct (h : (l₁ ++ x :: l₂).Pairwise (fun a b => (a == b) = false))
    (hx : (x == e) = true) : position l₁ e = none ∧ position l₂ e = none := by
  obtain ⟨-, h₂, h₁₂⟩ := pairwise_append.mp h
  constructor
  · rw [position_eq_none]
    intro y hy
    by_contra hne
    have hyx : (y == x) = true := BEq.trans (not_eq_false _ |>.mp hne) (BEq.symm hx)
    rw [h₁₂ y hy x mem_cons_self] at hyx
    exact false_ne_true hyx
  · rw [position_eq_none]
    intro y hy
    by_contra hne
    have hxy : (x == y) = true := BEq.trans hx (BEq.symm (not_eq_false _ |>.mp hne))
    rw [(pairwise_cons.mp h₂).1 y hy] at hxy
    exact false_ne_true hxy

/-- What equals an element behind the first ones equals none of these. -/
theorem position_front_eq_none (h : (l₁ ++ l₂).Pairwise (fun a b => (a == b) = false)) (hi : position l₂ e = some i) :
    position l₁ e = none := by
  obtain ⟨y, hy, hye⟩ := position_eq_some hi
  obtain ⟨m, n, rfl⟩ := append_of_mem (mem_of_getElem? hy)
  rw [← append_assoc] at h
  have hnone := (position_eq_none_of_distinct h hye).1
  rw [position_eq_none] at hnone ⊢
  exact fun z hz => hnone z (mem_append_left _ hz)

/-! ## The dictionary -/

omit [EquivBEq Element] in
theorem set_of_beq {indices : Element → Option Nat} {value : Option Nat} (h : (x == e) = true) :
    set indices x value e = value := if_pos h

omit [EquivBEq Element] in
theorem set_of_not {indices : Element → Option Nat} {value : Option Nat} (h : (x == e) = false) :
    set indices x value e = indices e := by
  unfold set
  rw [h]
  rfl

/-- Renumbering gives the elements their positions. -/
theorem foldl_set (start : Nat) (l : List Element) :
    ∀ (k : Nat) (indices : Element → Option Nat), l.Pairwise (fun a b => (a == b) = false) →
      (l.zipIdx k).foldl (fun indices (element, index) => set indices element (some (index + start))) indices e =
        ((position l e).map (fun j => k + j + start)).or (indices e) := by
  induction l with
  | nil => exact fun k indices _ => rfl
  | cons x l ih =>
    intro k indices h
    rw [zipIdx_cons, foldl_cons, ih (k + 1) _ (pairwise_cons.mp h).2]
    by_cases hx : (x == e) = true
    · have hsplit : ([] ++ x :: l).Pairwise (fun a b => (a == b) = false) := h
      have hnone := (position_eq_none_of_distinct hsplit hx).2
      rw [hnone, position_cons_of_beq hx]
      dsimp only
      rw [set_of_beq hx, map_some, Nat.add_zero]
      rfl
    · have hx' := not_eq_true _ |>.mp hx
      rw [position_cons_of_not hx', Option.map_map]
      dsimp only
      rw [set_of_not hx']
      congr 2
      funext j
      show k + 1 + j + start = k + (j + 1) + start
      omega

/-- Renumbering from an index makes the dictionary right, if it is right for the elements before. -/
theorem coherent_updateIndices (hdistinct : (l₁ ++ l₂).Pairwise (fun a b => (a == b) = false))
    (indices : Element → Option Nat) (hfront : ∀ e, position l₂ e = none → indices e = position l₁ e) :
    Coherent (updateIndices { array := l₁ ++ l₂, uniqueIndices := indices } l₁.length) where
  distinct := hdistinct
  positions := by
    intro e
    unfold updateIndices
    dsimp only
    rw [drop_left, foldl_set l₁.length l₂ 0 indices (pairwise_append.mp hdistinct).2.1]
    cases hback : position l₂ e with
    | none =>
      rw [position_append_left hback, map_none, none_or]
      exact hfront e hback
    | some j =>
      rw [position_append_right (position_front_eq_none hdistinct hback), hback]
      simp only [map_some, some_or, Nat.zero_add]

/-! ## The operations -/

omit [EquivBEq Element] in
theorem coherent_empty : Coherent ({} : OrderedSetStorage Element) where
  distinct := List.Pairwise.nil
  positions := fun _ => rfl

theorem Coherent.insert (h : Coherent s) (newElement : Element) (i : Nat) :
    (s.insert newElement i).map (fun (returned, s) => (returned, s.array)) = listInsert s.array newElement i ∧
      ∀ returned s', s.insert newElement i = some (returned, s') → Coherent s' := by
  unfold OrderedSetStorage.insert listInsert firstIndex
  rw [h.positions]
  cases hposition : position s.array newElement with
  | some existingIndex =>
    refine ⟨rfl, fun returned s' heq => ?_⟩
    cases heq
    exact h
  | none =>
    by_cases hi : i ≤ s.array.length
    · dsimp only
      rw [if_pos hi, if_pos hi]
      refine ⟨rfl, fun returned s' heq => ?_⟩
      cases heq
      have hlength : (s.array.take i).length = i := by rw [length_take, Nat.min_eq_left hi]
      have hsplit : s.array.insertIdx i newElement = s.array.take i ++ newElement :: s.array.drop i :=
        Positions.insertIdx_eq_append hi
      have hdistinct : (s.array.take i ++ newElement :: s.array.drop i).Pairwise (fun a b => (a == b) = false) := by
        have hnew := position_eq_none.mp hposition
        have hall := h.distinct
        rw [← take_append_drop i s.array, pairwise_append] at hall
        rw [pairwise_append, pairwise_cons]
        refine ⟨hall.1, ⟨fun y hy => ?_, hall.2.1⟩, fun a ha b hb => ?_⟩
        · rw [BEq.comm]
          exact hnew y (mem_of_mem_drop hy)
        · rcases mem_cons.mp hb with rfl | hb
          · exact hnew a (mem_of_mem_take ha)
          · exact hall.2.2 a ha b hb
      have hcoherent := coherent_updateIndices hdistinct s.uniqueIndices (fun e hnone => by
        rw [h.positions]
        calc position s.array e = position (s.array.take i ++ s.array.drop i) e := by rw [take_append_drop]
          _ = position (s.array.take i) e := position_append_left (position_eq_none_of_cons hnone).2)
      rw [hlength] at hcoherent
      rw [hsplit]
      exact hcoherent
    · dsimp only
      rw [if_neg hi, if_neg hi]
      refine ⟨rfl, fun returned s' heq => ?_⟩
      cases heq

theorem Coherent.append (h : Coherent s) (newElement : Element) :
    ∃ returned s', s.append newElement = some (returned, s') ∧
      listInsert s.array newElement s.array.length = some (returned, s'.array) ∧ Coherent s' := by
  obtain ⟨hlist, hcoherent⟩ := h.insert newElement s.array.length
  have hsome : (listInsert s.array newElement s.array.length).isSome = true := by
    unfold listInsert
    cases position s.array newElement with
    | some existingIndex => rfl
    | none => rw [if_pos (le_refl _)]; rfl
  unfold OrderedSetStorage.append
  cases hinsert : s.insert newElement s.array.length with
  | none =>
    rw [hinsert] at hlist
    rw [← hlist] at hsome
    exact absurd hsome false_ne_true
  | some r =>
    rw [hinsert] at hlist
    exact ⟨r.1, r.2, rfl, hlist.symm, hcoherent r.1 r.2 hinsert⟩

omit [EquivBEq Element] in
/-- Appending to a list, whether the element is there or not. -/
theorem listInsert_length {returned : Bool × Nat} {l' : List Element}
    (h : listInsert l x l.length = some (returned, l')) : l' = if (position l x).isSome then l else l ++ [x] := by
  unfold listInsert at h
  cases hposition : position l x with
  | some existingIndex =>
    rw [hposition] at h
    cases h
    rfl
  | none =>
    rw [hposition] at h
    dsimp only at h
    rw [if_pos (le_refl _)] at h
    cases h
    exact insertIdx_length_self

theorem Coherent.appendContents (h : Coherent s) (sequence : List Element) :
    ∃ s', s.appendContents sequence = some s' ∧ s'.array = listAppendContents s.array sequence ∧ Coherent s' := by
  unfold OrderedSetStorage.appendContents listAppendContents
  induction sequence generalizing s with
  | nil => exact ⟨s, rfl, rfl, h⟩
  | cons x sequence ih =>
    obtain ⟨returned, s₁, happend, hlist, h₁⟩ := h.append x
    obtain ⟨s', hrest, harray, h'⟩ := ih h₁
    refine ⟨s', ?_, ?_, h'⟩
    · rw [foldlM_cons, happend]
      exact hrest
    · rw [foldl_cons, harray, listInsert_length hlist]

theorem Coherent.remove (h : Coherent s) (index : Nat) :
    (s.remove index).map (fun (element, s) => (element, s.array)) =
        s.array[index]?.map (fun element => (element, s.array.eraseIdx index)) ∧
      ∀ element s', s.remove index = some (element, s') → Coherent s' := by
  unfold OrderedSetStorage.remove
  cases hremoved : s.array[index]? with
  | none =>
    refine ⟨rfl, fun element s' heq => ?_⟩
    cases heq
  | some removedElement =>
    refine ⟨rfl, fun element s' heq => ?_⟩
    cases heq
    obtain ⟨hi, hget⟩ := List.getElem?_eq_some_iff.mp hremoved
    have hlength : (s.array.take index).length = index := by rw [length_take, Nat.min_eq_left hi.le]
    have hsplit : s.array.eraseIdx index = s.array.take index ++ s.array.drop (index + 1) :=
      eraseIdx_eq_take_drop_succ s.array index
    have harray : s.array = s.array.take index ++ removedElement :: s.array.drop (index + 1) := by
      rw [← hget, ← drop_eq_getElem_cons hi, take_append_drop]
    have hall : (s.array.take index ++ removedElement :: s.array.drop (index + 1)).Pairwise
        (fun a b => (a == b) = false) := harray ▸ h.distinct
    have hdistinct : (s.array.take index ++ s.array.drop (index + 1)).Pairwise (fun a b => (a == b) = false) :=
      hall.sublist ((sublist_cons_self _ _).append_left _)
    have hcoherent := coherent_updateIndices hdistinct (set s.uniqueIndices removedElement none)
      (fun e hnone => by
        by_cases hx : (removedElement == e) = true
        · rw [set_of_beq hx, (position_eq_none_of_distinct hall hx).1]
        · have hx' := not_eq_true _ |>.mp hx
          have hback : position (removedElement :: s.array.drop (index + 1)) e = none := by
            rw [position_cons_of_not hx', hnone]
            rfl
          rw [set_of_not hx', h.positions]
          calc position s.array e
              = position (s.array.take index ++ removedElement :: s.array.drop (index + 1)) e := by rw [← harray]
            _ = position (s.array.take index) e := position_append_left hback)
    rw [hlength] at hcoherent
    rw [hsplit]
    exact hcoherent

theorem Coherent.removeLast (h : Coherent s) :
    s.removeLast.map (fun (element, s) => (element, s.array)) =
        s.array.getLast?.map (fun element => (element, s.array.dropLast)) ∧
      ∀ element s', s.removeLast = some (element, s') → Coherent s' := by
  unfold OrderedSetStorage.removeLast
  cases hlast : s.array.getLast? with
  | none =>
    refine ⟨rfl, fun element s' heq => ?_⟩
    cases heq
  | some lastElement =>
    refine ⟨rfl, fun element s' heq => ?_⟩
    cases heq
    have harray : s.array.dropLast ++ [lastElement] = s.array := dropLast_append_getLast? lastElement hlast
    have hall : (s.array.dropLast ++ [lastElement]).Pairwise (fun a b => (a == b) = false) := by
      rw [harray]
      exact h.distinct
    refine ⟨(pairwise_append.mp hall).1, fun e => ?_⟩
    dsimp only
    by_cases hx : (lastElement == e) = true
    · rw [set_of_beq hx, (position_eq_none_of_distinct hall hx).1]
    · have hx' := not_eq_true _ |>.mp hx
      have hback : position [lastElement] e = none := by
        rw [position_cons_of_not hx']
        rfl
      calc set s.uniqueIndices lastElement none e = position s.array e := by rw [set_of_not hx', h.positions]
        _ = position (s.array.dropLast ++ [lastElement]) e := by rw [harray]
        _ = position s.array.dropLast e := position_append_left hback

/-! ## Removing many -/

/-- The positions of the elements with a property, ascending. -/
def positionsOf (p : Element → Bool) (l : List Element) : List Nat :=
  (List.range l.length).filter (fun i => l[i]?.any p)

omit [BEq Element] [EquivBEq Element] in
theorem mem_positionsOf : i ∈ positionsOf p l ↔ ∃ y, l[i]? = some y ∧ p y = true := by
  unfold positionsOf
  rw [mem_filter, mem_range]
  constructor
  · rintro ⟨hi, hp⟩
    rw [getElem?_eq_getElem hi] at hp
    exact ⟨l[i], getElem?_eq_getElem hi, hp⟩
  · rintro ⟨y, hy, hp⟩
    rw [hy]
    exact ⟨(List.getElem?_eq_some_iff.mp hy).1, hp⟩

omit [BEq Element] [EquivBEq Element] in
theorem positionsOf_sorted (p : Element → Bool) : (positionsOf p l).Pairwise (fun i j => i < j) :=
  List.Pairwise.filter _ pairwise_lt_range

omit [BEq Element] [EquivBEq Element] in
theorem positionsOf_cons (p : Element → Bool) : positionsOf p (x :: l) =
    (if p x then [0] else []) ++ (positionsOf p l).map Nat.succ := by
  unfold positionsOf
  rw [length_cons, range_succ_eq_map, filter_cons, filter_map]
  show (if p x = true then _ else _) = _
  split_ifs with hx
  · rfl
  · rfl

omit [BEq Element] [EquivBEq Element] in
theorem positionsOf_cons_pos (hx : p x = true) :
    positionsOf p (x :: l) = 0 :: (positionsOf p l).map Nat.succ := by
  rw [positionsOf_cons, if_pos hx]
  rfl

omit [BEq Element] [EquivBEq Element] in
theorem positionsOf_cons_neg (hx : p x = false) :
    positionsOf p (x :: l) = (positionsOf p l).map Nat.succ := by
  rw [positionsOf_cons, hx]
  rfl

omit [BEq Element] [EquivBEq Element] in
/-- Erasing the elements at ascending positions, the last one first, leaves those that do not have the property. -/
theorem foldlM_eraseIdx (p : Element → Bool) (l : List Element) :
    (positionsOf p l).reverse.foldlM
      (fun array index => if index < array.length then some (array.eraseIdx index) else none) l =
        some (l.filter (fun e => !p e)) := by
  -- positions behind the first element
  have hshift : ∀ (x : Element) (js : List Nat) (l : List Element),
      (js.map Nat.succ).foldlM
        (fun array index => if index < array.length then some (array.eraseIdx index) else none) (x :: l) =
      (js.foldlM (fun array index => if index < array.length then some (array.eraseIdx index) else none) l).map
        (fun l => x :: l) := by
    intro x js
    induction js with
    | nil => exact fun l => rfl
    | cons j js ih =>
      intro l
      rw [map_cons, foldlM_cons, foldlM_cons, length_cons]
      by_cases hj : j < l.length
      · rw [if_pos hj, if_pos (Nat.succ_lt_succ hj)]
        exact ih (l.eraseIdx j)
      · rw [if_neg hj, if_neg (fun h => hj (Nat.lt_of_succ_lt_succ h))]
        rfl
  induction l with
  | nil => rfl
  | cons x l ih =>
    cases hx : p x with
    | true =>
      rw [positionsOf_cons_pos hx, reverse_cons, ← map_reverse, foldlM_append, hshift, ih,
        filter_cons_of_neg (by rw [hx]; decide)]
      rfl
    | false =>
      rw [positionsOf_cons_neg hx, ← map_reverse, hshift, ih, filter_cons_of_pos (by rw [hx]; rfl)]
      rfl

/-- What removing values does: the dictionary loses the keys, and gives their positions. -/
theorem removeValues_spec (other : List Element) : ∀ (removed : List Nat) (indices : Element → Option Nat),
    (∀ a b, (a == b) = true → indices a = indices b) →
    (∀ a b i, indices a = some i → indices b = some i → (a == b) = true) →
    ∃ added, (other.foldl (fun (removed, indices) key => (removed ++ (indices key).toList, set indices key none))
        (removed, indices)).1 = removed ++ added ∧ added.Nodup ∧
      (∀ i, i ∈ added ↔ ∃ key ∈ other, indices key = some i) ∧
      ∀ e, (other.foldl (fun (removed, indices) key => (removed ++ (indices key).toList, set indices key none))
        (removed, indices)).2 e = if other.any (fun key => key == e) then none else indices e := by
  induction other with
  | nil =>
    intro removed indices _ _
    refine ⟨[], (append_nil _).symm, nodup_nil, fun i => ?_, fun e => rfl⟩
    exact iff_of_false not_mem_nil (fun ⟨key, hkey, _⟩ => not_mem_nil hkey)
  | cons key other ih =>
    intro removed indices hcongr hinj
    have hcongr' : ∀ a b, (a == b) = true → set indices key none a = set indices key none b := by
      intro a b hab
      unfold set
      rw [BEq.congr_right hab, hcongr a b hab]
    have hinj' : ∀ a b i, set indices key none a = some i → set indices key none b = some i → (a == b) = true := by
      intro a b i ha hb
      unfold set at ha hb
      split_ifs at ha hb with hkey hkey'
      exact hinj a b i ha hb
    obtain ⟨added, hadded, hnodup, hmem, hrest⟩ := ih (removed ++ (indices key).toList) _ hcongr' hinj'
    rw [foldl_cons]
    refine ⟨(indices key).toList ++ added, ?_, ?_, fun i => ?_, fun e => ?_⟩
    · rw [hadded, append_assoc]
    · refine nodup_append.mpr ⟨?_, hnodup, fun i hi j hj heq => ?_⟩
      · cases indices key with
        | none => exact nodup_nil
        | some i => exact nodup_singleton i
      · -- a position is not removed twice, as its key is gone
        obtain ⟨key', -, hkey'⟩ := (hmem j).mp hj
        rw [← heq] at hkey'
        have hkey : indices key = some i := mem_toList.mp hi
        unfold set at hkey'
        split_ifs at hkey' with hne
        exact hne (hinj key key' i hkey hkey')
    · rw [mem_append, hmem, mem_toList]
      constructor
      · rintro (hi | ⟨key', hkey', hi⟩)
        · exact ⟨key, mem_cons_self, hi⟩
        · unfold set at hi
          split_ifs at hi with hne
          exact ⟨key', mem_cons_of_mem _ hkey', hi⟩
      · rintro ⟨key', hkey', hi⟩
        by_cases hbeq : (key == key') = true
        · rw [hcongr key key' hbeq]
          exact .inl hi
        · rcases mem_cons.mp hkey' with rfl | hkey'
          · exact absurd BEq.rfl hbeq
          · refine .inr ⟨key', hkey', ?_⟩
            rw [set_of_not (not_eq_true _ |>.mp hbeq)]
            exact hi
    · rw [hrest, any_cons]
      by_cases hbeq : (key == e) = true
      · rw [set_of_beq hbeq, hbeq, Bool.true_or, if_pos rfl, ite_self]
      · have hbeq' := not_eq_true _ |>.mp hbeq
        rw [set_of_not hbeq', hbeq', Bool.false_or]

theorem position_injective {a b : Element} (ha : position l a = some i) (hb : position l b = some i) :
    (a == b) = true := by
  obtain ⟨y, hy, hya⟩ := position_eq_some ha
  obtain ⟨z, hz, hzb⟩ := position_eq_some hb
  obtain rfl : y = z := Option.some.inj (hy.symm.trans hz)
  exact BEq.trans (BEq.symm hya) hzb

/-- In a list of different elements, the position of an element is the one it is at. -/
theorem position_getElem? (h : l.Pairwise (fun a b => (a == b) = false)) (hx : l[i]? = some x)
    (hbeq : (x == e) = true) : position l e = some i := by
  obtain ⟨hi, hget⟩ := List.getElem?_eq_some_iff.mp hx
  have hsplit : l = l.take i ++ x :: l.drop (i + 1) := by
    rw [← hget, ← drop_eq_getElem_cons hi, take_append_drop]
  rw [hsplit] at h ⊢
  rw [position_append_right (position_eq_none_of_distinct h hbeq).1, position_cons_of_beq hbeq, map_some,
    length_take, Nat.min_eq_left hi.le, Nat.zero_add]

/-- The positions that `subtract` removes, sorted, are those of the elements that equal one of the others. -/
theorem Coherent.removeIndices (h : Coherent s) (other : List Element) :
    (removeValues s.uniqueIndices other).1.mergeSort =
      positionsOf (fun e => other.any (fun key => key == e)) s.array := by
  have hpositions : s.uniqueIndices = position s.array := funext h.positions
  obtain ⟨added, hadded, hnodup, hmem, -⟩ := removeValues_spec other [] s.uniqueIndices
    (fun a b hab => by rw [hpositions]; exact position_congr hab)
    (fun a b i ha hb => by rw [hpositions] at ha hb; exact position_injective ha hb)
  rw [nil_append] at hadded
  unfold removeValues
  rw [hadded]
  have hsorted : added.mergeSort.Pairwise (fun i j => i ≤ j) := pairwise_mergeSort' (fun i j => i ≤ j) added
  have hpos : (positionsOf (fun e => other.any (fun key => key == e)) s.array).Pairwise (fun i j => i ≤ j) :=
    (positionsOf_sorted _).imp (fun hlt => Nat.le_of_lt hlt)
  have hnodup' : (positionsOf (fun e => other.any (fun key => key == e)) s.array).Nodup :=
    (positionsOf_sorted _).imp (fun hlt => Nat.ne_of_lt hlt)
  refine List.Perm.eq_of_pairwise (fun i j _ _ hij hji => Nat.le_antisymm hij hji) hsorted hpos ?_
  refine (mergeSort_perm added _).trans ((perm_ext_iff_of_nodup hnodup hnodup').mpr (fun i => ?_))
  rw [hmem, mem_positionsOf, hpositions]
  constructor
  · rintro ⟨key, hkey, hi⟩
    obtain ⟨y, hy, hbeq⟩ := position_eq_some hi
    exact ⟨y, hy, any_eq_true.mpr ⟨key, hkey, BEq.symm hbeq⟩⟩
  · rintro ⟨y, hy, hany⟩
    obtain ⟨key, hkey, hbeq⟩ := any_eq_true.mp hany
    exact ⟨key, hkey, position_getElem? h.distinct hy (BEq.symm hbeq)⟩

theorem Coherent.subtract (h : Coherent s) (other : List Element) :
    ∃ s', s.subtract other = some s' ∧ s'.array = s.array.filter (fun e => !other.any (fun key => key == e)) ∧
      Coherent s' := by
  have hpositions : s.uniqueIndices = position s.array := funext h.positions
  obtain ⟨-, -, -, -, hrest⟩ := removeValues_spec other [] s.uniqueIndices
    (fun a b hab => by rw [hpositions]; exact position_congr hab)
    (fun a b i ha hb => by rw [hpositions] at ha hb; exact position_injective ha hb)
  have hrest' : ∀ e, (removeValues s.uniqueIndices other).2 e =
      if other.any (fun key => key == e) then none else position s.array e := by
    intro e
    rw [← h.positions]
    exact hrest e
  have hdistinct : (s.array.filter (fun e => !other.any (fun key => key == e))).Pairwise
      (fun a b => (a == b) = false) := h.distinct.filter _
  unfold OrderedSetStorage.subtract
  dsimp only
  rw [h.removeIndices other, foldlM_eraseIdx]
  simp only [bind_eq_bind, bind_some]
  cases hfirst : (positionsOf (fun e => other.any (fun key => key == e)) s.array).head? with
  | none =>
    -- nothing is removed
    have hnone : ∀ y ∈ s.array, other.any (fun key => key == y) = false := by
      intro y hy
      by_contra hany
      obtain ⟨i, hi, hget⟩ := getElem_of_mem hy
      have hmem : i ∈ positionsOf (fun e => other.any (fun key => key == e)) s.array :=
        mem_positionsOf.mpr ⟨y, by rw [getElem?_eq_getElem hi, hget], not_eq_false _ |>.mp hany⟩
      rw [head?_eq_none_iff.mp hfirst] at hmem
      exact not_mem_nil hmem
    have hsame : s.array.filter (fun e => !other.any (fun key => key == e)) = s.array := by
      rw [filter_eq_self]
      intro y hy
      rw [hnone y hy]
      rfl
    refine ⟨_, rfl, rfl, hdistinct, fun e => ?_⟩
    dsimp only
    rw [hrest', hsame]
    split_ifs with hany
    · obtain ⟨key, hkey, hbeq⟩ := any_eq_true.mp hany
      rw [eq_comm, position_eq_none]
      intro y hy
      by_contra hne
      have hy' : other.any (fun key => key == y) = true :=
        any_eq_true.mpr ⟨key, hkey, BEq.trans hbeq (BEq.symm (not_eq_false _ |>.mp hne))⟩
      rw [hnone y hy] at hy'
      exact false_ne_true hy'
    · rfl
  | some first =>
    obtain ⟨rest, hrest₁⟩ := head?_eq_some_iff.mp hfirst
    have hle : ∀ i ∈ positionsOf (fun e => other.any (fun key => key == e)) s.array, first ≤ i := by
      have hsorted := positionsOf_sorted (l := s.array) (fun e => other.any (fun key => key == e))
      rw [hrest₁] at hsorted ⊢
      intro i hi
      rcases mem_cons.mp hi with rfl | hi
      · exact le_refl _
      · exact Nat.le_of_lt ((pairwise_cons.mp hsorted).1 i hi)
    obtain ⟨y, hy, -⟩ := mem_positionsOf.mp (hrest₁ ▸ mem_cons_self)
    have hlt : first < s.array.length := (List.getElem?_eq_some_iff.mp hy).1
    have hlength : (s.array.take first).length = first := by rw [length_take, Nat.min_eq_left hlt.le]
    -- the elements before the first one that is removed stay where they are
    have hfront : ∀ y ∈ s.array.take first, other.any (fun key => key == y) = false := by
      intro y hy
      by_contra hany
      obtain ⟨i, hi, hget⟩ := getElem_of_mem hy
      rw [hlength] at hi
      have hmem : i ∈ positionsOf (fun e => other.any (fun key => key == e)) s.array := by
        refine mem_positionsOf.mpr ⟨y, ?_, not_eq_false _ |>.mp hany⟩
        rw [← hget, getElem_take, getElem?_eq_getElem]
      exact absurd (hle i hmem) (Nat.not_le.mpr hi)
    have hsplit : s.array.filter (fun e => !other.any (fun key => key == e)) =
        s.array.take first ++ (s.array.drop first).filter (fun e => !other.any (fun key => key == e)) := by
      have hself : (s.array.take first).filter (fun e => !other.any (fun key => key == e)) = s.array.take first := by
        rw [filter_eq_self]
        intro y hy
        rw [hfront y hy]
        rfl
      calc s.array.filter (fun e => !other.any (fun key => key == e))
          = (s.array.take first ++ s.array.drop first).filter (fun e => !other.any (fun key => key == e)) := by
            rw [take_append_drop]
        _ = _ := by rw [filter_append, hself]
    refine ⟨_, rfl, rfl, ?_⟩
    rw [hsplit] at hdistinct ⊢
    have hcoherent := coherent_updateIndices hdistinct (removeValues s.uniqueIndices other).2
      (fun e hnone => by
        rw [hrest']
        split_ifs with hany
        · obtain ⟨key, hkey, hbeq⟩ := any_eq_true.mp hany
          rw [eq_comm, position_eq_none]
          intro y hy
          by_contra hne
          have hy' : other.any (fun key => key == y) = true :=
            any_eq_true.mpr ⟨key, hkey, BEq.trans hbeq (BEq.symm (not_eq_false _ |>.mp hne))⟩
          rw [hfront y hy] at hy'
          exact false_ne_true hy'
        · have hback : position (s.array.drop first) e = none := by
            rw [position_eq_none] at hnone ⊢
            intro y hy
            by_contra hne
            have hkept : (!other.any (fun key => key == y)) = true := by
              rw [not_eq_true']
              by_contra hany'
              obtain ⟨key, hkey, hbeq⟩ := any_eq_true.mp (not_eq_false _ |>.mp hany')
              exact hany (any_eq_true.mpr ⟨key, hkey, BEq.trans hbeq (not_eq_false _ |>.mp hne)⟩)
            rw [hnone y (mem_filter.mpr ⟨hy, hkept⟩)] at hne
            exact hne rfl
          calc position s.array e = position (s.array.take first ++ s.array.drop first) e := by
                rw [take_append_drop]
            _ = position (s.array.take first) e := position_append_left hback)
    rw [hlength] at hcoherent
    exact hcoherent

/-! ## Runs -/

omit [EquivBEq Element] in
/-- What holds of an operation holds of the step that makes a record of what it returns. -/
theorem step_of_operation {α : Type} {f : Option (α × OrderedSetStorage Element)} {g : Option (α × List Element)}
    (record : α → Returned Element) (h : f.map (fun r => (r.1, r.2.array)) = g ∧ ∀ a s', f = some (a, s') → Coherent s') :
    (f.map (fun r => (record r.1, r.2))).map (fun r => (r.1, r.2.array)) = g.map (fun r => (record r.1, r.2)) ∧
      ∀ returned s', f.map (fun r => (record r.1, r.2)) = some (returned, s') → Coherent s' := by
  obtain ⟨rfl, hcoherent⟩ := h
  cases f with
  | none => exact ⟨rfl, fun returned s' heq => by cases heq⟩
  | some r =>
    refine ⟨rfl, fun returned s' heq => ?_⟩
    cases heq
    exact hcoherent r.1 r.2 rfl

/-- An operation returns what it returns on the list, and keeps the storage coherent. -/
theorem Coherent.step (h : Coherent s) (operation : Operation Element) :
    (s.step operation).map (fun r => (r.1, r.2.array)) = listStep s.array operation ∧
      ∀ returned s', s.step operation = some (returned, s') → Coherent s' := by
  cases operation with
  | append newElement => exact step_of_operation (fun r => .inserted r.1 r.2) (h.insert newElement s.array.length)
  | insert newElement i => exact step_of_operation (fun r => .inserted r.1 r.2) (h.insert newElement i)
  | appendContents sequence =>
    obtain ⟨s', happend, harray, h'⟩ := h.appendContents sequence
    unfold OrderedSetStorage.step listStep
    dsimp only
    rw [happend, ← harray]
    refine ⟨rfl, fun returned s' heq => ?_⟩
    cases heq
    exact h'
  | remove index =>
    have hstep := step_of_operation Returned.element (h.remove index)
    rw [Option.map_map (g := fun element => (element, s.array.eraseIdx index))] at hstep
    exact hstep
  | removeLast =>
    have hstep := step_of_operation Returned.element h.removeLast
    rw [Option.map_map (g := fun element => (element, s.array.dropLast))] at hstep
    exact hstep
  | subtract other =>
    obtain ⟨s', hsubtract, harray, h'⟩ := h.subtract other
    unfold OrderedSetStorage.step listStep
    dsimp only
    rw [hsubtract, ← harray]
    refine ⟨rfl, fun returned s' heq => ?_⟩
    cases heq
    exact h'
  | removeAll =>
    refine ⟨rfl, fun returned s' heq => ?_⟩
    cases heq
    exact coherent_empty
  | firstIndex element =>
    refine ⟨?_, fun returned s' heq => ?_⟩
    · show some (Returned.index (s.uniqueIndices element), s.array) = _
      rw [h.positions]
      rfl
    · cases heq
      exact h
  | contains member =>
    refine ⟨?_, fun returned s' heq => ?_⟩
    · show some (Returned.bool (s.uniqueIndices member).isSome, s.array) = _
      rw [h.positions, isSome_position]
      rfl
    · cases heq
      exact h

theorem Coherent.run (operations : List (Operation Element)) : ∀ {s : OrderedSetStorage Element}, Coherent s →
    (s.run operations).map (fun r => (r.1, r.2.array)) = listRun s.array operations ∧
      ∀ returned s', s.run operations = some (returned, s') → Coherent s' := by
  induction operations with
  | nil =>
    intro s h
    refine ⟨rfl, fun returned s' heq => ?_⟩
    cases heq
    exact h
  | cons operation operations ih =>
    intro s h
    obtain ⟨hlist, hcoherent⟩ := h.step operation
    unfold OrderedSetStorage.run listRun
    rw [← hlist]
    cases hstep : s.step operation with
    | none => exact ⟨rfl, fun returned s' heq => by cases heq⟩
    | some r =>
      obtain ⟨returned₁, s₁⟩ := r
      obtain ⟨hrest, hcoherent'⟩ := ih (hcoherent returned₁ s₁ hstep)
      simp only [map_some, bind_eq_bind, bind_some]
      rw [← hrest]
      cases hrun : s₁.run operations with
      | none => exact ⟨rfl, fun returned s' heq => by cases heq⟩
      | some r =>
        refine ⟨rfl, fun returned s' heq => ?_⟩
        cases heq
        exact hcoherent' r.1 r.2 hrun

/-- **An ordered set behaves like a list of different elements**: after an initialisation from any sequence, whatever
operations follow each other, they return what they return on the list; no two elements of the array are equal, and the
dictionary has their positions and nothing else. -/
theorem run_coherent (sequence : List Element) (operations : List (Operation Element)) :
    ∃ s, ofSequence sequence = some s ∧ s.array = listAppendContents [] sequence ∧
      (s.run operations).map (fun r => (r.1, r.2.array)) = listRun (listAppendContents [] sequence) operations ∧
      ∀ returned s', s.run operations = some (returned, s') → Coherent s' := by
  have hempty : Coherent ({} : OrderedSetStorage Element) := coherent_empty
  obtain ⟨s, hsequence, harray, h⟩ := hempty.appendContents sequence
  obtain ⟨hlist, hcoherent⟩ := h.run operations
  rw [harray] at hlist
  exact ⟨s, hsequence, harray, hlist, hcoherent⟩

end

/-- The numbers, whose equality has a class for each remainder by three. -/
structure Remainder where
  n : Nat

instance : BEq Remainder := ⟨fun a b => decide (a.n % 3 = b.n % 3)⟩

instance : EquivBEq Remainder where
  rfl := fun {_} => decide_eq_true rfl
  symm := fun {_ _} h => decide_eq_true (of_decide_eq_true h).symm
  trans := fun {_ _ _} h h' => decide_eq_true ((of_decide_eq_true h).trans (of_decide_eq_true h'))

/-- An initialisation from four numbers, of which two are equal, and a subtraction of three. -/
theorem run_coherent_remainders :
    ∃ s, ofSequence [Remainder.mk 0, ⟨1⟩, ⟨4⟩, ⟨2⟩] = some s ∧
      s.array = listAppendContents [] [⟨0⟩, ⟨1⟩, ⟨4⟩, ⟨2⟩] ∧
      (s.run [.subtract [⟨3⟩, ⟨0⟩, ⟨7⟩]]).map (fun r => (r.1, r.2.array)) =
        listRun (listAppendContents [] [⟨0⟩, ⟨1⟩, ⟨4⟩, ⟨2⟩]) [.subtract [⟨3⟩, ⟨0⟩, ⟨7⟩]] ∧
      ∀ returned s', s.run [.subtract [⟨3⟩, ⟨0⟩, ⟨7⟩]] = some (returned, s') → Coherent s' :=
  run_coherent _ _

end OrderedSetStorage

end Builra
