import Builra.Lib.Positions
import Mathlib.Data.Nat.Count
import Mathlib.Order.WellFounded

/-!
# `Lib.CollectionDifference` — differences of two lists

A difference removes elements of the old list, by their offsets there, and inserts elements of the new one, by
their offsets there. What it leaves of the two is the same list, so that the new list is woven from what is left
of the old one and the inserted elements.
-/

namespace Differences

open List Function Nat

variable {α β : Type*}

structure CollectionDifference (α : Type*) where
  removals : List (Nat × α)
  insertions : List (Nat × α)
  removals_ascending : removals.Pairwise (fun a b => a.1 < b.1)
  insertions_ascending : insertions.Pairwise (fun a b => a.1 < b.1)

namespace CollectionDifference

variable (d : CollectionDifference α)

def removed : List Nat := d.removals.map Prod.fst

def inserted : List Nat := d.insertions.map Prod.fst

/-- The number of changes, the length of the edit script. -/
def count : Nat := d.removals.length + d.insertions.length

theorem removed_ascending : d.removed.Pairwise (fun a b => a < b) :=
  pairwise_map.mpr d.removals_ascending

theorem inserted_ascending : d.inserted.Pairwise (fun a b => a < b) :=
  pairwise_map.mpr d.insertions_ascending

end CollectionDifference

/-! ## Counting offsets -/

variable (gone : List Nat)

/-- How many of the first `n` elements of a list stay when those at the offsets in `gone` go. -/
def kept (n : Nat) : Nat := Nat.count (fun k => k ∉ gone) n

theorem kept_add_count (n : Nat) : kept gone n + Nat.count (fun k => k ∈ gone) n = n := by
  unfold kept
  induction n with
  | zero => rfl
  | succ n ih =>
    rw [count_succ, count_succ]
    by_cases h : n ∈ gone
    · rw [if_neg (not_not.mpr h), if_pos h]
      omega
    · rw [if_pos h, if_neg h]
      omega

@[simp] theorem kept_zero : kept gone 0 = 0 := count_zero _

theorem kept_mono : Monotone (kept gone) := count_monotone _

variable {gone gaps : List Nat} {n base : Nat} {l : List α} {p : α → Bool} {ins : List (Nat × α)}

theorem kept_succ_of_mem (h : n ∈ gone) : kept gone (n + 1) = kept gone n :=
  count_succ_eq_count_iff.mpr (not_not.mpr h)

/-- Elements that stay, one after another. -/
theorem kept_add_of_forall {m : Nat} (h : ∀ k, n ≤ k → k < n + m → k ∉ gone) :
    kept gone (n + m) = kept gone n + m := by
  unfold kept
  rw [count_add, count_of_forall (fun k hk => h (n + k) (by omega) (by omega))]

/-- Two initial segments with as many offsets of a kind hold the same ones. -/
theorem count_eq_count_iff {p : Nat → Prop} [DecidablePred p] {m : Nat} :
    Nat.count p m = Nat.count p n ↔ ∀ r, p r → (r < m ↔ r < n) := by
  constructor
  · intro h r hr
    constructor
    · intro hm
      by_contra hn
      have := count_strict_mono hr hm
      have := count_monotone p (Nat.le_of_not_lt hn)
      omega
    · intro hn
      by_contra hm
      have := count_strict_mono hr hn
      have := count_monotone p (Nat.le_of_not_lt hm)
      omega
  · intro h
    refine Nat.le_antisymm ?_ ?_
    · by_contra hlt
      obtain ⟨r, hr, hp⟩ := exists_of_count_lt_count (Nat.lt_of_not_le hlt)
      exact Nat.not_lt.mpr hr.1 ((h r hp).mp hr.2)
    · by_contra hlt
      obtain ⟨r, hr, hp⟩ := exists_of_count_lt_count (Nat.lt_of_not_le hlt)
      exact Nat.not_lt.mpr hr.1 ((h r hp).mpr hr.2)

theorem count_mem (h : gone.Nodup) (n : Nat) :
    Nat.count (fun k => k ∈ gone) n = (gone.filter (fun k => k < n)).length := by
  rw [count_eq_card_filter_range, ← toFinset_card_of_nodup (h.filter _)]
  congr 1
  ext k
  rw [Finset.mem_filter, Finset.mem_range, mem_toFinset, mem_filter, decide_eq_true_iff, and_comm]

/-- The offsets below one of them are those listed before it. -/
theorem count_mem_append_cons {before behind : List Nat} {o : Nat}
    (h : (before ++ o :: behind).Pairwise (fun a b => a < b)) :
    Nat.count (fun k => k ∈ before ++ o :: behind) o = before.length := by
  obtain ⟨-, hbehind, hbefore⟩ := pairwise_append.mp h
  have hlow : before.filter (fun k => k < o) = before :=
    filter_eq_self.mpr (fun k hk => decide_eq_true (hbefore k hk o mem_cons_self))
  have hhigh : (o :: behind).filter (fun k => k < o) = [] := by
    refine filter_eq_nil_iff.mpr (fun k hk => ?_)
    rw [decide_eq_true_iff]
    rcases mem_cons.mp hk with rfl | hk
    · exact Nat.lt_irrefl k
    · exact Nat.not_lt.mpr (Nat.le_of_lt ((pairwise_cons.mp hbehind).1 k hk))
  rw [count_mem (h.imp ne_of_lt), filter_append, hlow, hhigh, append_nil]

/-! ## What is left of a list -/

/-- A list, its first element at offset `n`, without the elements at the offsets in `gone`. -/
def survivors (gone : List Nat) : Nat → List α → List α
  | _, [] => []
  | n, x :: l => if n ∈ gone then survivors gone (n + 1) l else x :: survivors gone (n + 1) l

variable {gone : List Nat}

theorem survivors_cons_of_mem (h : n ∈ gone) (x : α) (l : List α) :
    survivors gone n (x :: l) = survivors gone (n + 1) l := if_pos h

theorem survivors_cons_of_notMem (h : n ∉ gone) (x : α) (l : List α) :
    survivors gone n (x :: l) = x :: survivors gone (n + 1) l := if_neg h

theorem survivors_append (n : Nat) (l₁ l₂ : List α) :
    survivors gone n (l₁ ++ l₂) = survivors gone n l₁ ++ survivors gone (n + l₁.length) l₂ := by
  induction l₁ generalizing n with
  | nil => rfl
  | cons x l₁ ih =>
    have hlen : n + (x :: l₁).length = n + 1 + l₁.length := by
      rw [length_cons]
      omega
    rw [hlen]
    by_cases h : n ∈ gone
    · rw [cons_append, survivors_cons_of_mem h, survivors_cons_of_mem h, ih]
    · rw [cons_append, survivors_cons_of_notMem h, survivors_cons_of_notMem h, ih, cons_append]

theorem survivors_of_forall (h : ∀ k, n ≤ k → k < n + l.length → k ∉ gone) :
    survivors gone n l = l := by
  induction l generalizing n with
  | nil => rfl
  | cons x l ih =>
    rw [length_cons] at h
    rw [survivors_cons_of_notMem (h n (Nat.le_refl n) (by omega)), ih (fun k hk hlt => h k (by omega) (by omega))]

theorem survivors_eq_nil (h : ∀ k, n ≤ k → k < n + l.length → k ∈ gone) :
    survivors gone n l = [] := by
  induction l generalizing n with
  | nil => rfl
  | cons x l ih =>
    rw [length_cons] at h
    rw [survivors_cons_of_mem (h n (Nat.le_refl n) (by omega)), ih (fun k hk hlt => h k (by omega) (by omega))]

theorem survivors_map (f : α → β) (n : Nat) (l : List α) :
    survivors gone n (l.map f) = (survivors gone n l).map f := by
  induction l generalizing n with
  | nil => rfl
  | cons x l ih =>
    rw [map_cons]
    by_cases h : n ∈ gone
    · rw [survivors_cons_of_mem h, survivors_cons_of_mem h, ih]
    · rw [survivors_cons_of_notMem h, survivors_cons_of_notMem h, ih, map_cons]

theorem length_survivors (gone : List Nat) (n : Nat) (l : List α) :
    kept gone n + (survivors gone n l).length = kept gone (n + l.length) := by
  induction l generalizing n with
  | nil => rfl
  | cons x l ih =>
    have hlen : n + (x :: l).length = n + 1 + l.length := by
      rw [length_cons]
      omega
    rw [hlen, ← ih]
    by_cases h : n ∈ gone
    · rw [survivors_cons_of_mem h, kept_succ_of_mem h]
    · have hkept : kept gone (n + 1) = kept gone n + 1 := count_succ_eq_succ_count_iff.mpr h
      rw [survivors_cons_of_notMem h, length_cons, hkept]
      omega

theorem length_survivors_zero (gone : List Nat) (l : List α) : (survivors gone 0 l).length = kept gone l.length := by
  have hkept := length_survivors gone 0 l
  rwa [Nat.zero_add, kept_zero, Nat.zero_add] at hkept

theorem length_survivors_add (hnodup : gone.Nodup) (hlt : ∀ k ∈ gone, k < l.length) :
    (survivors gone 0 l).length + gone.length = l.length := by
  have hsum := kept_add_count gone l.length
  rw [count_mem hnodup, filter_eq_self.mpr (fun k hk => decide_eq_true (hlt k hk))] at hsum
  rwa [length_survivors_zero]

theorem survivors_sublist (n : Nat) (l : List α) : (survivors gone n l).Sublist l := by
  induction l generalizing n with
  | nil => exact List.Sublist.refl []
  | cons x l ih =>
    by_cases h : n ∈ gone
    · rw [survivors_cons_of_mem h]
      exact (ih (n + 1)).cons x
    · rw [survivors_cons_of_notMem h]
      exact (ih (n + 1)).cons_cons x

/-- A property that tells the offsets apart. -/
theorem filter_eq_survivors (h : ∀ k x, l[k]? = some x → (p x = true ↔ n + k ∉ gone)) :
    l.filter p = survivors gone n l := by
  induction l generalizing n with
  | nil => rfl
  | cons x l ih =>
    have hx := h 0 x rfl
    have hl := ih (n := n + 1) (fun k y hy => by
      rw [h (k + 1) y hy, Nat.add_assoc, Nat.add_comm 1])
    by_cases hn : n ∈ gone
    · rw [survivors_cons_of_mem hn, filter_cons_of_neg (fun hp => hx.mp hp hn), hl]
    · rw [survivors_cons_of_notMem hn, filter_cons_of_pos (hx.mpr hn), hl]

/-! ## Transformations and edit scripts -/

/-- The difference turns `old` into `new`: it names elements of both by their offsets, and the others are the same. -/
structure Transforms (same : α → α → Prop) (old new : List α) (d : CollectionDifference α) : Prop where
  removed : ∀ r ∈ d.removals, old[r.1]? = some r.2
  inserted : ∀ i ∈ d.insertions, new[i.1]? = some i.2
  kept : List.Forall₂ same (survivors d.removed 0 old) (survivors d.inserted 0 new)

section Transforms

variable {same : α → α → Prop} {old new : List α} {d : CollectionDifference α} (h : Transforms same old new d)

include h

theorem Transforms.length_old : (survivors d.removed 0 old).length + d.removals.length = old.length := by
  have hlen := length_survivors_add (l := old) (d.removed_ascending.imp ne_of_lt) (fun k hk => by
    obtain ⟨r, hr, rfl⟩ := mem_map.mp hk
    exact (List.getElem?_eq_some_iff.mp (h.removed r hr)).1)
  rwa [CollectionDifference.removed, length_map] at hlen

theorem Transforms.length_new : (survivors d.inserted 0 new).length + d.insertions.length = new.length := by
  have hlen := length_survivors_add (l := new) (d.inserted_ascending.imp ne_of_lt) (fun k hk => by
    obtain ⟨i, hi, rfl⟩ := mem_map.mp hk
    exact (List.getElem?_eq_some_iff.mp (h.inserted i hi)).1)
  rwa [CollectionDifference.inserted, length_map] at hlen

end Transforms

/-- No difference makes the same of it with fewer changes. -/
structure Minimal (same : α → α → Prop) (old new : List α) (d : CollectionDifference α) : Prop where
  transforms : Transforms same old new d
  least : ∀ d', Transforms same old new d' → d.count ≤ d'.count

/-- Every element of a list, with its offset. -/
def offsets (l : List α) : List (Nat × α) := l.zipIdx.map Prod.swap

theorem offsets_ascending (l : List α) : (offsets l).Pairwise (fun a b => a.1 < b.1) := by
  refine pairwise_map.mpr (pairwise_iff_getElem.mpr (fun i j hi hj hij => ?_))
  rw [getElem_zipIdx, getElem_zipIdx]
  exact Nat.add_lt_add_left hij 0

theorem mem_offsets {p : Nat × α} : p ∈ offsets l ↔ l[p.1]? = some p.2 := by
  rw [offsets, mem_map]
  constructor
  · rintro ⟨⟨x, i⟩, hmem, rfl⟩
    exact mem_zipIdx_iff_getElem?.mp hmem
  · intro h
    exact ⟨(p.2, p.1), mem_zipIdx_iff_getElem?.mpr h, rfl⟩

theorem survivors_offsets (l : List α) : survivors ((offsets l).map Prod.fst) 0 l = [] := by
  refine survivors_eq_nil (fun k _ hk => ?_)
  rw [Nat.zero_add] at hk
  exact mem_map.mpr ⟨(k, l[k]), mem_offsets.mpr (getElem?_eq_getElem hk), rfl⟩

/-- Everything goes and comes anew. -/
def replaceAll (old new : List α) : CollectionDifference α where
  removals := offsets old
  insertions := offsets new
  removals_ascending := offsets_ascending old
  insertions_ascending := offsets_ascending new

theorem replaceAll_transforms (same : α → α → Prop) (old new : List α) :
    Transforms same old new (replaceAll old new) where
  removed := fun _ hr => mem_offsets.mp hr
  inserted := fun _ hi => mem_offsets.mp hi
  kept := by
    show List.Forall₂ same (survivors ((offsets old).map Prod.fst) 0 old) (survivors ((offsets new).map Prod.fst) 0 new)
    rw [survivors_offsets, survivors_offsets]
    exact List.Forall₂.nil

theorem exists_minimal (same : α → α → Prop) (old new : List α) : ∃ d, Minimal same old new d := by
  obtain ⟨d, hd, hleast⟩ := WellFounded.has_min (measure CollectionDifference.count).wf
    {d | Transforms same old new d} ⟨_, replaceAll_transforms same old new⟩
  exact ⟨d, hd, fun d' hd' => Nat.le_of_not_lt (hleast d' hd')⟩

/-- A given minimal difference is that of some way to find minimal ones. -/
theorem exists_minimal_difference {same : α → α → Prop} {old new : List α} {d : CollectionDifference α}
    (h : Minimal same old new d) :
    ∃ difference : List α → List α → CollectionDifference α,
      (∀ old new, Minimal same old new (difference old new)) ∧ difference old new = d := by
  classical
  choose difference hdifference using exists_minimal same
  refine ⟨update difference old (update (difference old) new d), fun old' new' => ?_, ?_⟩
  · by_cases hold : old' = old
    · subst hold
      rw [update_self]
      by_cases hnew : new' = new
      · subst hnew
        rw [update_self]
        exact h
      · rw [update_of_ne hnew]
        exact hdifference old' new'
    · rw [update_of_ne hold]
      exact hdifference old' new'
  · rw [update_self, update_self]

/-! ## Weaving elements into a list -/

/-- Puts elements into a list whose first element stands behind `base` others: each behind as many of its elements
    as its gap says. -/
def weave : Nat → List (Nat × α) → List α → List α
  | _, [], l => l
  | base, (q, x) :: rest, l => l.take (q - base) ++ x :: weave q rest (l.drop (q - base))

theorem weave_cons (base q : Nat) (x : α) (rest : List (Nat × α)) (l : List α) :
    weave base ((q, x) :: rest) l = l.take (q - base) ++ x :: weave q rest (l.drop (q - base)) := rfl

/-- Gaps of a list of length `n`, from the front to the back. -/
structure Gaps (base n : Nat) (gaps : List Nat) : Prop where
  ascending : gaps.Pairwise (fun a b => a ≤ b)
  ge : ∀ q ∈ gaps, base ≤ q
  le : ∀ q ∈ gaps, q ≤ base + n

theorem Gaps.tail {q : Nat} (h : Gaps base l.length (q :: gaps)) :
    Gaps q (l.drop (q - base)).length gaps where
  ascending := (pairwise_cons.mp h.ascending).2
  ge := (pairwise_cons.mp h.ascending).1
  le := fun q' hq' => by
    have := h.ge q mem_cons_self
    have := h.le q mem_cons_self
    have := h.le q' (mem_cons_of_mem q hq')
    rw [length_drop]
    omega

theorem Gaps.head_le {q : Nat} (h : Gaps base l.length (q :: gaps)) :
    q - base ≤ l.length := by
  have := h.le q mem_cons_self
  omega

theorem Gaps.map {m : Nat} {c : Nat → Nat} (h : Gaps 0 n gaps) (hc : Monotone c) (hm : c n ≤ m) :
    Gaps 0 m (gaps.map c) where
  ascending := pairwise_map.mpr (h.ascending.imp (fun hab => hc hab))
  ge := fun _ _ => zero_le _
  le := by
    intro q hq
    obtain ⟨q, hmem, rfl⟩ := mem_map.mp hq
    have hle := h.le q hmem
    rw [Nat.zero_add] at hle ⊢
    exact Nat.le_trans (hc hle) hm

theorem weave_map (f : α → β) (base : Nat) (ins : List (Nat × α)) (l : List α) :
    (weave base ins l).map f = weave base (ins.map (fun p => (p.1, f p.2))) (l.map f) := by
  induction ins generalizing base l with
  | nil => rfl
  | cons p rest ih =>
    obtain ⟨q, x⟩ := p
    rw [map_cons, weave_cons, weave_cons, map_append, map_cons, ih, map_take, map_drop]

/-- Without the elements that were put in, the list is as before. -/
theorem filter_weave_of_not (h : ∀ i ∈ ins, p i.2 = false) : (weave base ins l).filter p = l.filter p := by
  induction ins generalizing base l with
  | nil => rfl
  | cons i rest ih =>
    obtain ⟨q, x⟩ := i
    have hx : p x = false := h (q, x) mem_cons_self
    rw [weave_cons, filter_append, filter_cons_of_neg (Bool.eq_false_iff.mp hx),
      ih (fun i hi => h i (mem_cons_of_mem _ hi)), ← filter_append, take_append_drop]

/-- Of the elements that stay, those that were put in stand behind as many as `c` counts. -/
theorem filter_weave {c : Nat → Nat} (hgaps : Gaps base l.length (ins.map Prod.fst)) (h : ∀ i ∈ ins, p i.2 = true)
    (hc : ∀ n ≤ l.length, c (base + n) = c base + ((l.take n).filter p).length) :
    (weave base ins l).filter p = weave (c base) (ins.map (fun i => (c i.1, i.2))) (l.filter p) := by
  induction ins generalizing base l with
  | nil => rfl
  | cons i rest ih =>
    obtain ⟨q, x⟩ := i
    rw [map_cons] at hgaps
    change Gaps base l.length (q :: rest.map Prod.fst) at hgaps
    have hq : base + (q - base) = q := add_sub_of_le (hgaps.ge q mem_cons_self)
    have hcq := hc (q - base) hgaps.head_le
    rw [hq] at hcq
    have hcount : c q - c base = ((l.take (q - base)).filter p).length := by omega
    have hsplit : l.filter p = (l.take (q - base)).filter p ++ (l.drop (q - base)).filter p := by
      rw [← filter_append, take_append_drop]
    have hrest := ih hgaps.tail (fun i hi => h i (mem_cons_of_mem _ hi)) (fun n hn => by
      rw [length_drop] at hn
      have hlen := hgaps.head_le
      have hn' := hc (q - base + n) (by omega)
      rw [← Nat.add_assoc, hq, take_add, filter_append, length_append] at hn'
      omega)
    rw [weave_cons, filter_append, filter_cons_of_pos (h (q, x) mem_cons_self), hrest, map_cons,
      weave_cons, hcount, hsplit, take_left, drop_left]

/-- Where no element stands twice, the gaps can be read off the result. -/
theorem weave_injOn {γ : Type*} {f g : γ → Nat} {x : γ → α} {ins : List γ} (hf : Gaps base l.length (ins.map f))
    (hg : Gaps base l.length (ins.map g)) (hnodup : (weave base (ins.map (fun i => (f i, x i))) l).Nodup)
    (h : weave base (ins.map (fun i => (f i, x i))) l = weave base (ins.map (fun i => (g i, x i))) l) :
    ∀ i ∈ ins, f i = g i := by
  induction ins generalizing base l with
  | nil => exact fun i hi => nomatch hi
  | cons i rest ih =>
    rw [map_cons] at hf hg
    rw [map_cons, map_cons, weave_cons, weave_cons] at h
    rw [map_cons, weave_cons] at hnodup
    have hfresh := nodup_middle.mp hnodup
    have hnot := nodup_cons.mp hfresh
    have hnodup' := hnodup
    rw [h] at hnodup'
    have hnot' := nodup_cons.mp (nodup_middle.mp hnodup')
    obtain ⟨htake, -, hweave⟩ := (append_cons_inj_of_notMem
      (fun hm => hnot.1 (mem_append_left _ hm)) (fun hm => hnot.1 (mem_append_right _ hm))).mp h
    have hlen := congrArg List.length htake
    rw [length_take, length_take, Nat.min_eq_left hf.head_le, Nat.min_eq_left hg.head_le] at hlen
    have hfi := hf.ge (f i) mem_cons_self
    have hgi := hg.ge (g i) mem_cons_self
    have heq : f i = g i := by omega
    intro j hj
    rcases mem_cons.mp hj with rfl | hj
    · exact heq
    · rw [← heq] at hweave hg
      exact ih hf.tail hg.tail (nodup_append.mp hnot.2).2.1 hweave j hj

/-- A list is woven from the elements at some offsets and the others. -/
theorem weave_survivors (hascending : ins.Pairwise (fun a b => a.1 < b.1))
    (hget : ∀ i ∈ ins, n ≤ i.1 ∧ l[i.1 - n]? = some i.2) (hgone : ∀ k, n ≤ k → (k ∈ gone ↔ k ∈ ins.map Prod.fst)) :
    weave (kept gone n) (ins.map (fun i => (kept gone i.1, i.2))) (survivors gone n l) = l := by
  induction ins generalizing n l with
  | nil => exact survivors_of_forall (fun k hk _ hmem => not_mem_nil ((hgone k hk).mp hmem))
  | cons i rest ih =>
    obtain ⟨o, x⟩ := i
    obtain ⟨ho, hx⟩ := hget (o, x) mem_cons_self
    obtain ⟨hlow, hrest⟩ := pairwise_cons.mp hascending
    obtain ⟨m, rfl⟩ := Nat.exists_eq_add_of_le ho
    rw [Nat.add_sub_cancel_left] at hx
    obtain ⟨hm, hxm : l[m] = x⟩ := List.getElem?_eq_some_iff.mp hx
    -- Up to the next offset everything stays.
    have hfront : ∀ k, n ≤ k → k < n + m → k ∉ gone := by
      intro k hk hlt hmem
      rw [hgone k hk, map_cons, mem_cons] at hmem
      rcases hmem with rfl | hmem
      · exact Nat.lt_irrefl _ hlt
      · obtain ⟨j, hj, rfl⟩ := mem_map.mp hmem
        exact Nat.lt_asymm hlt (hlow j hj)
    have hhere : n + m ∈ gone := (hgone _ ho).mpr mem_cons_self
    have htake : (l.take m).length = m := by
      rw [length_take, Nat.min_eq_left (Nat.le_of_lt hm)]
    have hsplit : l = l.take m ++ x :: l.drop (m + 1) := by
      rw [← hxm, ← drop_eq_getElem_cons hm, take_append_drop]
    have hsurvivors : survivors gone n l = l.take m ++ survivors gone (n + m + 1) (l.drop (m + 1)) := by
      conv_lhs => rw [hsplit]
      rw [survivors_append, survivors_of_forall (by rw [htake]; exact hfront), htake, survivors_cons_of_mem hhere]
    have hbehind := ih (n := n + m + 1) (l := l.drop (m + 1)) hrest
      (fun j hj => by
        have hlt := hlow j hj
        have hget' := (hget j (mem_cons_of_mem _ hj)).2
        refine ⟨hlt, ?_⟩
        rw [getElem?_drop, ← hget']
        congr 1
        simp only at hlt
        omega)
      (fun k hk => by
        rw [hgone k (by omega), map_cons, mem_cons, or_iff_right]
        exact Nat.ne_of_gt hk)
    rw [kept_succ_of_mem hhere] at hbehind
    rw [map_cons, weave_cons, hsurvivors, kept_add_of_forall hfront, Nat.add_sub_cancel_left,
      take_left' htake, drop_left' htake, ← kept_add_of_forall hfront, hbehind, ← hsplit]

/-! ## Putting elements in one by one -/

/-- Puts an element in at an index; none when the index is out of range. -/
def insertAt (l : List α) (i : Nat) (x : α) : Option (List α) :=
  if i ≤ l.length then some (l.insertIdx i x) else none

theorem insertAt_append {i : Nat} (x : α) (front : List α) (hi : i ≤ l.length) :
    insertAt (front ++ l) (front.length + i) x = some ((front ++ l.take i ++ [x]) ++ l.drop i) := by
  rw [insertAt, if_pos (by rw [length_append]; omega),
    Positions.insertIdx_eq_append (by rw [length_append]; omega), take_append, drop_append,
    Nat.add_sub_cancel_left, take_of_length_le (le_add_right _ _),
    drop_of_length_le (le_add_right _ _), nil_append, append_assoc _ [x] (l.drop i)]
  rfl

/-- The `j`-th element is put in behind the elements before its gap and the `j` that were put in before it. -/
theorem foldlM_insertAt {gap pos : Nat × α → Nat} {front : List α} (hgaps : Gaps base l.length (ins.map gap))
    (hpos : ∀ before i behind, ins = before ++ i :: behind → base + pos i = gap i + front.length + before.length) :
    ins.foldlM (fun merged i => insertAt merged (pos i) i.2) (front ++ l)
      = some (front ++ weave base (ins.map (fun i => (gap i, i.2))) l) := by
  induction ins generalizing base front l with
  | nil => rfl
  | cons i rest ih =>
    rw [map_cons] at hgaps
    have hi : pos i = front.length + (gap i - base) := by
      have := hpos [] i rest rfl
      have := hgaps.ge (gap i) mem_cons_self
      rw [length_nil] at *
      omega
    rw [foldlM_cons, hi, insertAt_append i.2 front hgaps.head_le, Option.bind_eq_bind, Option.bind_some,
      ih hgaps.tail, map_cons, weave_cons, append_assoc, append_assoc]
    · rfl
    · intro before j behind hsplit
      have hj := hpos (i :: before) j behind (by rw [hsplit]; rfl)
      have hge := hgaps.ge (gap i) mem_cons_self
      have hle := hgaps.head_le
      rw [length_cons] at hj
      rw [length_append, length_append, length_take, Nat.min_eq_left hle, length_singleton]
      omega

end Differences
