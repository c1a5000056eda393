import Mathlib.Data.List.Basic
import Mathlib.Data.List.Induction
import Mathlib.Data.Nat.ModEq

namespace Builra

open List Option Nat

/-!
# `Util.Queue` — a queue in a wrapped array

The head and the tail are virtual indices, the slot of a virtual index is its remainder by the size of the array. The
array is doubled when it is full. An operation that traps gives `none`.
-/

structure Queue (T : Type) where
  /-- The backing array used with wrapped access. -/
  array : List (Option T) := [none]
  /-- The virtual index of the head of the queue. -/
  head : Nat := 0
  /-- The virtual index of the tail of the queue. -/
  tail : Nat := 0

namespace Queue

variable {T : Type}

/-! ## The source -/

/-- Creates a queue with the given items. The array has at least one element. -/
def ofSequence (sequence : List T) : Queue T where
  array := if sequence = [] then [none] else sequence.map some
  head := 0
  tail := sequence.length

def count (queue : Queue T) : Nat := queue.tail - queue.head

def isEmpty (queue : Queue T) : Bool := queue.head = queue.tail

/-- The concrete index of a logical index. -/
def concreteIndex (queue : Queue T) (index : Nat) : Nat := (queue.head + index) % queue.array.length

/-- Resize the backing storage for items. -/
def grow (queue : Queue T) : Option (Queue T) := do
  let n := queue.count
  let priorArray := queue.array
  let array ← (List.range n).foldlM
    (fun array i => do
      let item ← priorArray[(queue.head + i) % priorArray.length]?
      if i < array.length then some (array.set i item) else none)
    (List.replicate (priorArray.length * 2) none)
  if n < array.length then some { array, head := 0, tail := n } else none

/-- Append an element to the queue. -/
def append (queue : Queue T) (item : T) : Option (Queue T) := do
  -- grow the array if necessary
  let queue ← if queue.count = queue.array.length then queue.grow else some queue
  let index := queue.tail % queue.array.length
  if index < queue.array.length then
    some { queue with array := queue.array.set index (some item), tail := queue.tail + 1 }
  else none

def appendContents (queue : Queue T) (newElements : List T) : Option (Queue T) := newElements.foldlM append queue

/-- Remove and return the element at the head of the queue. -/
def popFirst (queue : Queue T) : Option (Option T × Queue T) :=
  if queue.isEmpty then some (none, queue)
  else do
    let index := queue.concreteIndex 0
    let result ← (queue.array[index]?).join
    some (some result, { queue with array := queue.array.set index none, head := queue.head + 1 })

/-- The element at a logical index. -/
def subscript (queue : Queue T) (index : Nat) : Option T :=
  if index < queue.count then (queue.array[queue.concreteIndex index]?).join else none

/-! ## Sequences of operations -/

inductive Operation (T : Type) where
  | append (item : T)
  | appendContents (newElements : List T)
  | popFirst
  | count
  | subscript (index : Nat)

/-- What an operation returns. -/
inductive Returned (T : Type) where
  | nothing
  | first (result : Option T)
  | count (n : Nat)
  | element (item : T)

def step (queue : Queue T) : Operation T → Option (Returned T × Queue T)
  | .append item => (queue.append item).map (fun queue => (.nothing, queue))
  | .appendContents newElements => (queue.appendContents newElements).map (fun queue => (.nothing, queue))
  | .popFirst => queue.popFirst.map (fun (result, queue) => (.first result, queue))
  | .count => some (.count queue.count, queue)
  | .subscript index => (queue.subscript index).map (fun item => (.element item, queue))

/-- What the operations return, and the queue after them. -/
def run (queue : Queue T) : List (Operation T) → Option (List (Returned T) × Queue T)
  | [] => some ([], queue)
  | operation :: operations => do
    let (returned, queue) ← queue.step operation
    let (rest, queue) ← queue.run operations
    some (returned :: rest, queue)

/-! ## What a queue is for -/

/-- The operation on a list, first in first out. -/
def listStep (l : List T) : Operation T → Option (Returned T × List T)
  | .append item => some (.nothing, l ++ [item])
  | .appendContents newElements => some (.nothing, l ++ newElements)
  | .popFirst => some (.first l.head?, l.tail)
  | .count => some (.count l.length, l)
  | .subscript index => l[index]?.map (fun item => (.element item, l))

def listRun (l : List T) : List (Operation T) → Option (List (Returned T) × List T)
  | [] => some ([], l)
  | operation :: operations => do
    let (returned, l) ← listStep l operation
    let (rest, l) ← listRun l operations
    some (returned :: rest, l)

/-- The slot of a virtual index between the head and the tail. -/
def IsOccupied (queue : Queue T) (p : Nat) : Prop :=
  ∃ i, queue.head ≤ i ∧ i < queue.tail ∧ i % queue.array.length = p

/-- The head is before the tail, not farther than the array is long, and exactly the slots between them are occupied. -/
structure WellFormed (queue : Queue T) : Prop where
  le : queue.head ≤ queue.tail
  bound : queue.tail ≤ queue.head + queue.array.length
  occupied : ∀ p item, queue.array[p]? = some item → (item ≠ none ↔ queue.IsOccupied p)

/-- The items in the slots from the head to the tail. -/
def contents (queue : Queue T) : List T :=
  (List.range queue.count).filterMap (fun i => (queue.array[queue.concreteIndex i]?).join)

/-- The slots hold the items of the list, from the head on, and nothing else. -/
structure Represents (queue : Queue T) (l : List T) : Prop where
  tail : queue.tail = queue.head + l.length
  bound : l.length ≤ queue.array.length
  pos : 0 < queue.array.length
  slot : ∀ i < l.length, queue.array[(queue.head + i) % queue.array.length]? = some l[i]?
  free : ∀ p < queue.array.length, (∀ i < l.length, (queue.head + i) % queue.array.length ≠ p) →
    queue.array[p]? = some none

section

variable {queue : Queue T} {l : List T}

theorem Represents.count (h : Represents queue l) : queue.count = l.length := by
  unfold Queue.count
  rw [h.tail, Nat.add_sub_cancel_left]

theorem filterMap_getElem? (l : List T) : (List.range l.length).filterMap (fun i => l[i]?) = l := by
  induction l using List.reverseRecOn with
  | nil => rfl
  | append_singleton l item ih =>
    have hfront : ∀ i ∈ List.range l.length, (l ++ [item])[i]? = l[i]? :=
      fun i hi => getElem?_append_left (mem_range.mp hi)
    rw [length_append, length_singleton, range_succ, filterMap_append,
      filterMap_congr hfront, ih, filterMap_cons, getElem?_concat_length]
    rfl

theorem Represents.contents (h : Represents queue l) : queue.contents = l := by
  have hitems : ∀ i ∈ List.range l.length, (queue.array[queue.concreteIndex i]?).join = l[i]? := by
    intro i hi
    rw [concreteIndex, h.slot i (mem_range.mp hi)]
    rfl
  unfold Queue.contents
  rw [h.count, filterMap_congr hitems, filterMap_getElem?]

/-- Different items are in different slots. -/
theorem index_injective {i j : Nat} (hi : i < queue.array.length)
    (hj : j < queue.array.length)
    (heq : (queue.head + i) % queue.array.length = (queue.head + j) % queue.array.length) : i = j := by
  have hmod : i ≡ j [MOD queue.array.length] := Nat.ModEq.add_left_cancel' queue.head heq
  rw [Nat.ModEq, mod_eq_of_lt hi, mod_eq_of_lt hj] at hmod
  exact hmod

theorem Represents.wellFormed (h : Represents queue l) : WellFormed queue := by
  have htail := h.tail
  have hbound := h.bound
  refine ⟨by omega, by omega, fun p item hitem => ?_⟩
  obtain ⟨hp, -⟩ := List.getElem?_eq_some_iff.mp hitem
  constructor
  · intro hne
    by_contra hoccupied
    have hfree := h.free p hp (fun i hi heq => hoccupied ⟨queue.head + i, by omega, by omega, heq⟩)
    exact hne (some.inj (hitem.symm.trans hfree))
  · rintro ⟨i, hle, hlt, rfl⟩ rfl
    have hslot := h.slot (i - queue.head) (by omega)
    rw [Nat.add_sub_cancel' hle, hitem, getElem?_eq_getElem (by omega)] at hslot
    cases hslot

/-! ## The operations -/

theorem represents_ofSequence (sequence : List T) : Represents (ofSequence sequence) sequence := by
  unfold ofSequence
  split_ifs with hnil
  · subst hnil
    refine ⟨rfl, zero_le 1, Nat.zero_lt_one, fun i hi => absurd hi (not_lt_zero i), ?_⟩
    intro p hp _
    obtain rfl : p = 0 := lt_one_iff.mp hp
    rfl
  · have hlength : (sequence.map some).length = sequence.length := length_map some
    refine ⟨(Nat.zero_add _).symm, hlength.ge, by rw [hlength]; exact length_pos_iff.mpr hnil, ?_, ?_⟩
    · intro i hi
      dsimp only
      rw [hlength, Nat.zero_add, mod_eq_of_lt hi, getElem?_map, getElem?_eq_getElem hi]
      rfl
    · intro p hp hfree
      dsimp only at hp hfree
      rw [hlength] at hp hfree
      exact absurd (by rw [Nat.zero_add, mod_eq_of_lt hp]) (hfree p hp)

/-- Growing moves the items to the front of an array twice as long. -/
theorem Represents.grow (h : Represents queue l) (hfull : l.length = queue.array.length) :
    queue.grow = some { array := l.map some ++ List.replicate l.length none, head := 0, tail := l.length } := by
  have hloop : ∀ k ≤ l.length, (List.range k).foldlM
      (fun array i => do
        let item ← queue.array[(queue.head + i) % queue.array.length]?
        if i < array.length then some (array.set i item) else none)
      (List.replicate (queue.array.length * 2) none) =
        some ((l.take k).map some ++ List.replicate (queue.array.length * 2 - k) none) := by
    intro k hk
    induction k with
    | zero =>
      rw [range_zero, take_zero]
      rfl
    | succ k ih =>
      have hlt : k < queue.array.length * 2 := by omega
      have hlength : ((l.take k).map some ++ List.replicate (queue.array.length * 2 - k) none).length =
          queue.array.length * 2 := by
        rw [length_append, length_map, length_take, length_replicate]
        omega
      have htake : ((l.take k).map some).length = k := by
        rw [length_map, length_take, Nat.min_eq_left (le_of_succ_le hk)]
      obtain ⟨m, hm⟩ : ∃ m, queue.array.length * 2 - k = m + 1 := ⟨queue.array.length * 2 - k - 1, by omega⟩
      have hm' : queue.array.length * 2 - (k + 1) = m := by omega
      rw [range_succ, foldlM_append, ih (le_of_succ_le hk)]
      simp only [bind_eq_bind, bind_some, foldlM_cons, foldlM_nil, h.slot k hk, hlength,
        if_pos hlt]
      rw [set_append_right _ _ htake.le, htake, Nat.sub_self, hm, hm', replicate_succ, set_cons_zero,
        take_succ_eq_append_getElem hk, map_append, append_assoc, getElem?_eq_getElem hk]
      rfl
  have hlength : (l.map some ++ List.replicate l.length none).length = queue.array.length * 2 := by
    rw [length_append, length_map, length_replicate]
    omega
  have hroom : l.length < queue.array.length * 2 := by
    have hpos := h.pos
    omega
  have hall := hloop l.length (le_refl _)
  have hrest : queue.array.length * 2 - l.length = l.length := by omega
  rw [take_length, hrest] at hall
  unfold Queue.grow
  dsimp only
  rw [h.count, hall]
  simp only [bind_eq_bind, bind_some]
  rw [hlength, if_pos hroom]

/-- After growing, the items are at the front, and there are free slots. -/
theorem represents_grown (hne : l ≠ []) :
    Represents { array := l.map some ++ List.replicate l.length none, head := 0, tail := l.length } l := by
  have hpos : 0 < l.length := length_pos_iff.mpr hne
  have hlength : (l.map some ++ List.replicate l.length none).length = l.length + l.length := by
    rw [length_append, length_map, length_replicate]
  refine ⟨(Nat.zero_add _).symm, ?_, ?_, fun i hi => ?_, fun p hp hfree => ?_⟩
  · dsimp only
    omega
  · dsimp only
    omega
  · dsimp only
    rw [Nat.zero_add, mod_eq_of_lt (by omega), getElem?_append_left (by rw [length_map]; exact hi),
      getElem?_map, getElem?_eq_getElem hi]
    rfl
  · dsimp only at hp hfree ⊢
    have hle : l.length ≤ p := by
      by_contra hlt
      apply hfree p (Nat.not_le.mp hlt)
      rw [Nat.zero_add, mod_eq_of_lt hp]
    rw [getElem?_append_right (by rw [length_map]; exact hle), getElem?_replicate, if_pos]
    rw [length_map]
    omega

/-- An item is put into the slot behind the last one. -/
theorem Represents.push (h : Represents queue l) (hroom : l.length < queue.array.length) (item : T) :
    Represents { queue with
      array := queue.array.set (queue.tail % queue.array.length) (some item), tail := queue.tail + 1 }
      (l ++ [item]) := by
  refine ⟨?_, ?_, ?_, fun i hi => ?_, fun p hp hfree => ?_⟩
  · dsimp only
    rw [length_append, length_singleton, h.tail]
    omega
  · rw [length_append, length_singleton, length_set]
    exact hroom
  · rw [length_set]
    exact h.pos
  · dsimp only
    rw [length_append, length_singleton] at hi
    rw [length_set, h.tail]
    have hmod : (queue.head + i) % queue.array.length < queue.array.length := mod_lt _ h.pos
    rcases Nat.lt_succ_iff_lt_or_eq.mp hi with hi | rfl
    · have hne : (queue.head + l.length) % queue.array.length ≠ (queue.head + i) % queue.array.length := by
        intro heq
        have hij := index_injective hroom (hi.trans hroom) heq
        omega
      rw [getElem?_set_ne hne, h.slot i hi, getElem?_append_left hi]
    · rw [getElem?_set_self hmod, getElem?_concat_length]
  · dsimp only at hp hfree ⊢
    rw [length_set] at hp hfree
    rw [length_append, length_singleton] at hfree
    have hne : queue.tail % queue.array.length ≠ p := by
      rw [h.tail]
      exact hfree l.length (lt_succ_self _)
    rw [getElem?_set_ne hne]
    exact h.free p hp (fun i hi => hfree i (lt_succ_of_lt hi))

theorem Represents.append (h : Represents queue l) (item : T) :
    ∃ queue', queue.append item = some queue' ∧ Represents queue' (l ++ [item]) := by
  unfold Queue.append
  rw [h.count]
  by_cases hfull : l.length = queue.array.length
  · have hne : l ≠ [] := by
      rw [← length_pos_iff, hfull]
      exact h.pos
    have hgrown := represents_grown hne
    have hroom : l.length < (l.map some ++ List.replicate l.length none).length := by
      have hpos := h.pos
      rw [length_append, length_map, length_replicate]
      omega
    refine ⟨_, ?_, hgrown.push hroom item⟩
    rw [if_pos hfull, h.grow hfull]
    simp only [bind_eq_bind, bind_some]
    rw [if_pos (mod_lt _ hgrown.pos)]
  · have hroom : l.length < queue.array.length := Nat.lt_of_le_of_ne h.bound hfull
    refine ⟨_, ?_, h.push hroom item⟩
    rw [if_neg hfull]
    simp only [bind_eq_bind, bind_some]
    rw [if_pos (mod_lt _ h.pos)]

theorem Represents.appendContents (newElements : List T) : ∀ {queue : Queue T} {l : List T}, Represents queue l →
    ∃ queue', queue.appendContents newElements = some queue' ∧ Represents queue' (l ++ newElements) := by
  unfold Queue.appendContents
  induction newElements with
  | nil =>
    intro queue l h
    rw [append_nil]
    exact ⟨queue, rfl, h⟩
  | cons item newElements ih =>
    intro queue l h
    obtain ⟨queue₁, happend, h₁⟩ := h.append item
    obtain ⟨queue', hrest, h'⟩ := ih h₁
    rw [append_assoc] at h'
    refine ⟨queue', ?_, h'⟩
    rw [foldlM_cons, happend]
    exact hrest

theorem Represents.popFirst_nil (h : Represents queue []) : queue.popFirst = some (none, queue) := by
  have hempty : queue.isEmpty = true := decide_eq_true h.tail.symm
  unfold Queue.popFirst
  rw [if_pos hempty]

/-- The first item leaves a free slot behind. -/
theorem Represents.popFirst_cons {item : T} (h : Represents queue (item :: l)) :
    ∃ queue', queue.popFirst = some (some item, queue') ∧ Represents queue' l := by
  have hlength : (item :: l).length = l.length + 1 := length_cons
  have hbound := h.bound
  have hempty : queue.isEmpty = false := by
    rw [isEmpty, decide_eq_false_iff_not, h.tail]
    omega
  have hfirst : queue.array[queue.concreteIndex 0]? = some (some item) := h.slot 0 (succ_pos _)
  have hindex : queue.concreteIndex 0 < queue.array.length := mod_lt _ h.pos
  refine ⟨{ queue with array := queue.array.set (queue.concreteIndex 0) none, head := queue.head + 1 }, ?_, ?_⟩
  · unfold Queue.popFirst
    rw [hempty, if_neg Bool.false_ne_true]
    dsimp only
    rw [hfirst]
    rfl
  · have hshift : ∀ i, queue.head + 1 + i = queue.head + (i + 1) := fun i => by omega
    refine ⟨?_, ?_, ?_, fun i hi => ?_, fun p hp hfree => ?_⟩
    · dsimp only
      rw [h.tail]
      omega
    · rw [length_set]
      omega
    · rw [length_set]
      exact h.pos
    · dsimp only
      rw [length_set, hshift]
      have hne : queue.concreteIndex 0 ≠ (queue.head + (i + 1)) % queue.array.length := by
        intro heq
        have hij := index_injective h.pos (by omega) heq
        omega
      rw [getElem?_set_ne hne, h.slot (i + 1) (by omega)]
      rfl
    · dsimp only at hp hfree ⊢
      rw [length_set] at hp hfree
      by_cases hp₀ : queue.concreteIndex 0 = p
      · rw [hp₀, getElem?_set_self hp]
      · rw [getElem?_set_ne hp₀]
        refine h.free p hp (fun i hi => ?_)
        cases i with
        | zero => exact hp₀
        | succ i =>
          rw [← hshift]
          exact hfree i (by omega)

theorem Represents.subscript (h : Represents queue l) (index : Nat) : queue.subscript index = l[index]? := by
  unfold Queue.subscript
  rw [h.count]
  split_ifs with hlt
  · rw [concreteIndex, h.slot index hlt]
    rfl
  · rw [getElem?_eq_none (Nat.not_lt.mp hlt)]

/-! ## The refinement -/

/-- An operation on a queue returns what it returns on the list. -/
theorem Represents.step (h : Represents queue l) (operation : Operation T) :
    (queue.step operation = none ∧ listStep l operation = none) ∨
      ∃ returned queue' l', queue.step operation = some (returned, queue') ∧
        listStep l operation = some (returned, l') ∧ Represents queue' l' := by
  unfold Queue.step listStep
  cases operation with
  | append item =>
    obtain ⟨queue', happend, h'⟩ := h.append item
    dsimp only
    rw [happend]
    exact .inr ⟨_, queue', _, rfl, rfl, h'⟩
  | appendContents newElements =>
    obtain ⟨queue', happend, h'⟩ := Represents.appendContents newElements h
    dsimp only
    rw [happend]
    exact .inr ⟨_, queue', _, rfl, rfl, h'⟩
  | popFirst =>
    dsimp only
    cases l with
    | nil =>
      rw [h.popFirst_nil]
      exact .inr ⟨_, queue, _, rfl, rfl, h⟩
    | cons item l =>
      obtain ⟨queue', hpop, h'⟩ := h.popFirst_cons
      rw [hpop]
      exact .inr ⟨_, queue', _, rfl, rfl, h'⟩
  | count =>
    dsimp only
    rw [h.count]
    exact .inr ⟨_, queue, _, rfl, rfl, h⟩
  | subscript index =>
    dsimp only
    rw [h.subscript]
    cases l[index]? with
    | none => exact .inl ⟨rfl, rfl⟩
    | some item => exact .inr ⟨_, queue, _, rfl, rfl, h⟩

theorem Represents.run (operations : List (Operation T)) : ∀ {queue : Queue T} {l : List T}, Represents queue l →
    (queue.run operations = none ∧ listRun l operations = none) ∨
      ∃ returned queue' l', queue.run operations = some (returned, queue') ∧
        listRun l operations = some (returned, l') ∧ Represents queue' l' := by
  induction operations with
  | nil => exact fun {queue l} h => .inr ⟨[], queue, l, rfl, rfl, h⟩
  | cons operation operations ih =>
    intro queue l h
    unfold Queue.run listRun
    rcases h.step operation with ⟨hstep, hlist⟩ | ⟨returned, queue₁, l₁, hstep, hlist, h₁⟩
    · rw [hstep, hlist]
      exact .inl ⟨rfl, rfl⟩
    · rw [hstep, hlist]
      rcases ih h₁ with ⟨hrun, hlist'⟩ | ⟨rest, queue', l', hrun, hlist', h'⟩
      · simp only [bind_eq_bind, bind_some, hrun, hlist']
        exact .inl ⟨rfl, rfl⟩
      · simp only [bind_eq_bind, bind_some, hrun, hlist']
        exact .inr ⟨_, queue', l', rfl, rfl, h'⟩

/-- **A queue behaves like a list**: whatever operations follow each other, they return the same and trap for the same
subscripts, and after them the queue holds the same items and is well formed. -/
theorem run_eq_listRun (sequence : List T) (operations : List (Operation T)) :
    ((ofSequence sequence).run operations).map (fun r => (r.1, r.2.contents)) = listRun sequence operations ∧
      ∀ returned queue, (ofSequence sequence).run operations = some (returned, queue) → WellFormed queue := by
  rcases (represents_ofSequence sequence).run operations with ⟨hrun, hlist⟩ | ⟨returned, queue, l, hrun, hlist, h⟩
  · rw [hrun, hlist]
    refine ⟨rfl, fun returned queue h => ?_⟩
    cases h
  · rw [hrun, hlist]
    refine ⟨?_, fun returned' queue' heq => ?_⟩
    · rw [← h.contents]
      rfl
    · cases heq
      exact h.wellFormed

end

end Queue

end Builra
