import Mathlib.Data.List.ReduceOption
import Mathlib.Data.List.Range
import Mathlib.Data.Nat.ModEq

namespace Builra

open List Nat

/-!
# `Lib.LinearProbing` — open addressing with linear probing

A table of slots, each free or holding an entry. A key is looked for from the slot its hash names, one slot
after the other and around the end, until a free slot or an entry with that key stops the search. Nothing is
removed, so every entry stays within reach of its search (`Placed`), and what the table holds is an
association list (`upsert`).
-/

namespace LinearProbing

variable {ε κ : Type} [DecidableEq κ] (key : ε → κ) (hash : κ → Nat)

/-- The slot the search for `k` looks at in step `i`. -/
def position (n : Nat) (k : κ) (i : Nat) : Nat := (hash k + i) % n

variable (slots : List (Option ε))

/-- What the table holds. -/
abbrev entries : List ε := slots.reduceOption

/-- A free slot or an entry with the key stops the search. -/
def stops (k : κ) (p : Nat) : Bool :=
  match slots[p]? with
  | some (some e) => key e = k
  | some none => true
  | none => false

/-- The step in which the search for `k` stops. -/
def probe (k : κ) : Option Nat :=
  (List.range slots.length).find? (fun i => stops key slots k (position hash slots.length k i))

/-- Put an entry where the search for its key stops; an entry that is there stays unless it is replaced. -/
def store (replace : Bool) (slots : List (Option ε)) (e : ε) : Option (List (Option ε)) :=
  match probe key hash slots (key e) with
  | none => none
  | some i =>
    match slots[position hash slots.length (key e) i]? with
    | some (some _) => if replace then some (slots.set (position hash slots.length (key e) i) (some e)) else some slots
    | _ => some (slots.set (position hash slots.length (key e) i) (some e))

/-- The association list after an entry is put into it. -/
def upsert (replace : Bool) (l : List ε) (e : ε) : List ε :=
  if l.any (fun x => key x = key e) then
    if replace then l.map (fun x => if key x = key e then e else x) else l
  else l ++ [e]

/-- Every entry is within reach of the search for its key, and no key is held twice. -/
structure Placed (slots : List (Option ε)) : Prop where
  within : ∀ (p : Nat) (e : ε), slots[p]? = some (some e) → ∃ i < slots.length, p = position hash slots.length (key e) i ∧
    ∀ j < i, ∃ e', slots[position hash slots.length (key e) j]? = some (some e')
  distinct : ∀ (p p' : Nat) (e e' : ε), slots[p]? = some (some e) → slots[p']? = some (some e') → key e = key e' → p = p'

variable {key hash} {slots slots' : List (Option ε)} {k : κ} {e : ε} {i : Nat} {replace : Bool}

theorem mem_entries : e ∈ entries slots ↔ ∃ p : Nat, slots[p]? = some (some e) := by
  rw [reduceOption_mem_iff, mem_iff_getElem?]

omit [DecidableEq κ] in
theorem placed_replicate (n : Nat) : Placed key hash (List.replicate n (none : Option ε)) := by
  have hnone : ∀ (p : Nat) (e : ε), (List.replicate n (none : Option ε))[p]? = some (some e) → False := by
    intro p e h
    have hmem := mem_of_getElem? h
    exact absurd (eq_of_mem_replicate hmem) (by simp)
  exact ⟨fun p e h => (hnone p e h).elim, fun p p' e e' h => (hnone p e h).elim⟩

/-! ## The search -/

omit [DecidableEq κ] in
theorem position_lt {n : Nat} (hn : 0 < n) (k : κ) (i : Nat) : position hash n k i < n := mod_lt _ hn

omit [DecidableEq κ] in
/-- Every slot is looked at. -/
theorem exists_position {n p : Nat} (hp : p < n) (k : κ) : ∃ i < n, position hash n k i = p := by
  have hn : 0 < n := zero_lt_of_lt hp
  have hlt : hash k % n < n := mod_lt _ hn
  refine ⟨(p + (n - hash k % n)) % n, mod_lt _ hn, ?_⟩
  rw [position, add_mod_mod, ← mod_add_mod]
  have hsum : hash k % n + (p + (n - hash k % n)) = p + n := by omega
  rw [hsum, add_mod_right, mod_eq_of_lt hp]

theorem probe_eq_some (h : probe key hash slots k = some i) :
    i < slots.length ∧ stops key slots k (position hash slots.length k i) = true ∧
      ∀ j < i, stops key slots k (position hash slots.length k j) = false := by
  obtain ⟨hstop, hmem, hbefore⟩ := find?_range_eq_some.mp h
  exact ⟨mem_range.mp hmem, hstop, fun j hj => by simpa using hbefore j hj⟩

/-- With a free slot the search stops. -/
theorem probe_isSome {p : Nat} (h : slots[p]? = some none) (k : κ) : (probe key hash slots k).isSome = true := by
  have hp : p < slots.length := (List.getElem?_eq_some_iff.mp h).1
  obtain ⟨i, hi, hpos⟩ : ∃ i < slots.length, position hash slots.length k i = p := exists_position hp k
  rw [probe, find?_isSome]
  refine ⟨i, mem_range.mpr hi, ?_⟩
  rw [hpos, stops, h]

/-- A slot passed by the search holds an entry with another key. -/
theorem held_of_not_stops {p : Nat} (hp : p < slots.length) (h : stops key slots k p = false) :
    ∃ e', slots[p]? = some (some e') ∧ key e' ≠ k := by
  obtain ⟨slot, hslot⟩ : ∃ slot, slots[p]? = some slot := ⟨_, getElem?_eq_getElem hp⟩
  cases slot with
  | none => simp [stops, hslot] at h
  | some e' => exact ⟨e', hslot, by simpa [stops, hslot] using h⟩

/-- The search stops at the entry with the key, or there is none. -/
theorem Placed.found (hp : Placed key hash slots) (h : probe key hash slots k = some i) :
    (∃ e', slots[position hash slots.length k i]? = some (some e') ∧ key e' = k) ∨
      (slots[position hash slots.length k i]? = some none ∧ ∀ e' ∈ entries slots, key e' ≠ k) := by
  obtain ⟨hi, hstop, hbefore⟩ := probe_eq_some h
  have hn : 0 < slots.length := zero_lt_of_lt hi
  obtain ⟨slot, hslot⟩ : ∃ slot, slots[position hash slots.length k i]? = some slot :=
    ⟨_, getElem?_eq_getElem (position_lt hn k i)⟩
  cases slot with
  | some e' => exact .inl ⟨e', hslot, by simpa [stops, hslot] using hstop⟩
  | none =>
    refine .inr ⟨hslot, fun e' he' hk => ?_⟩
    obtain ⟨p', hp'⟩ := mem_entries.mp he'
    obtain ⟨i', -, hpos, hheld⟩ := hp.within p' e' hp'
    rw [hk] at hpos hheld
    have hstop' : stops key slots k (position hash slots.length k i') = true := by
      rw [← hpos, stops, hp']
      simpa using hk
    -- the search would have stopped before the entry, at a free slot
    rcases Nat.lt_trichotomy i i' with hlt | rfl | hlt
    · obtain ⟨e₂, he₂⟩ := hheld i hlt
      rw [hslot] at he₂
      exact absurd he₂ (by simp)
    · rw [← hpos, hp'] at hslot
      exact absurd hslot (by simp)
    · rw [hbefore i' hlt] at hstop'
      exact absurd hstop' (by simp)

/-! ## Storing -/

/-- Filling the slot where the search stops keeps every entry within reach. -/
theorem Placed.set (hp : Placed key hash slots) (h : probe key hash slots (key e) = some i) :
    Placed key hash (slots.set (position hash slots.length (key e) i) (some e)) := by
  obtain ⟨hi, hstop, hbefore⟩ := probe_eq_some h
  have hn : 0 < slots.length := zero_lt_of_lt hi
  generalize hpos : position hash slots.length (key e) i = p at *
  have hplt : p < slots.length := by
    rw [← hpos]
    exact position_lt hn _ _
  have hself : (slots.set p (some e))[p]? = some (some e) := getElem?_set_self hplt
  have hother : ∀ q, q ≠ p → (slots.set p (some e))[q]? = slots[q]? :=
    fun q hq => getElem?_set_ne (Ne.symm hq)
  have hheld : ∀ (q : Nat) (e' : ε), slots[q]? = some (some e') → ∃ e₂, (slots.set p (some e))[q]? = some (some e₂) := by
    intro q e' hq
    by_cases heq : q = p
    · exact ⟨e, heq ▸ hself⟩
    · exact ⟨e', (hother q heq).trans hq⟩
  -- no other slot holds the key
  have hone : ∀ (q : Nat) (e' : ε), q ≠ p → slots[q]? = some (some e') → key e' ≠ key e := by
    intro q e' hq he' hk
    rcases hp.found h with ⟨e₀, he₀, hk₀⟩ | ⟨-, habsent⟩
    · rw [hpos] at he₀
      exact hq (hp.distinct q p e' e₀ he' he₀ (hk.trans hk₀.symm))
    · exact habsent e' (mem_entries.mpr ⟨q, he'⟩) hk
  constructor
  · intro q e' hq
    rw [length_set]
    by_cases heq : q = p
    · subst heq
      obtain rfl : e = e' := by simpa [hself] using hq
      refine ⟨i, hi, hpos.symm, fun j hj => ?_⟩
      obtain ⟨e₂, he₂, -⟩ := held_of_not_stops (position_lt hn _ _) (hbefore j hj)
      exact hheld _ _ he₂
    · rw [hother q heq] at hq
      obtain ⟨i', hi', hpos', hbefore'⟩ := hp.within q e' hq
      refine ⟨i', hi', hpos', fun j hj => ?_⟩
      obtain ⟨e₂, he₂⟩ := hbefore' j hj
      exact hheld _ _ he₂
  · intro q q' e₁ e₂ h₁ h₂ hk
    by_cases hq : q = p
    · by_cases hq' : q' = p
      · exact hq.trans hq'.symm
      · rw [hother q' hq'] at h₂
        rw [hq, hself] at h₁
        obtain rfl : e = e₁ := by simpa using h₁
        exact absurd hk.symm (hone q' e₂ hq' h₂)
    · rw [hother q hq] at h₁
      by_cases hq' : q' = p
      · rw [hq', hself] at h₂
        obtain rfl : e = e₂ := by simpa using h₂
        exact absurd hk (hone q e₁ hq h₁)
      · rw [hother q' hq'] at h₂
        exact hp.distinct q q' e₁ e₂ h₁ h₂ hk

theorem split_at {p : Nat} {slot : Option ε} (h : slots[p]? = some slot) :
    slots = slots.take p ++ slot :: slots.drop (p + 1) := by
  obtain ⟨hp, hget⟩ := List.getElem?_eq_some_iff.mp h
  rw [← hget, getElem_cons_drop, take_append_drop]

theorem entries_append (l l' : List (Option ε)) : entries (l ++ l') = entries l ++ entries l' :=
  reduceOption_append l l'

theorem entries_some (e : ε) (l : List (Option ε)) : entries (some e :: l) = e :: entries l :=
  reduceOption_cons_of_some e l

theorem entries_none (l : List (Option ε)) : entries (none :: l) = entries l :=
  reduceOption_cons_of_none l

/-- A free slot is filled. -/
theorem entries_set_free {p : Nat} (h : slots[p]? = some none) (e : ε) :
    (entries (slots.set p (some e))).Perm (entries slots ++ [e]) := by
  have hsplit := split_at h
  have hp : p < slots.length := (List.getElem?_eq_some_iff.mp h).1
  have hset : slots.set p (some e) = slots.take p ++ some e :: slots.drop (p + 1) :=
    set_eq_take_append_cons_drop.trans (if_pos hp)
  rw [hset]
  conv_rhs => rw [hsplit]
  rw [entries_append, entries_append, entries_some, entries_none, append_assoc]
  exact List.Perm.append_left _ (perm_append_singleton e _).symm

/-- The entry with the same key is replaced. -/
theorem Placed.entries_set_held (hp : Placed key hash slots) {p : Nat} {e₀ : ε}
    (h : slots[p]? = some (some e₀)) (hk : key e₀ = key e) :
    entries (slots.set p (some e)) = (entries slots).map (fun x => if key x = key e then e else x) := by
  have hsplit := split_at h
  have hlt : p < slots.length := (List.getElem?_eq_some_iff.mp h).1
  have hset : slots.set p (some e) = slots.take p ++ some e :: slots.drop (p + 1) :=
    set_eq_take_append_cons_drop.trans (if_pos hlt)
  -- the other slots hold other keys
  have hsame : ∀ l : List (Option ε), (∀ x ∈ entries l, key x ≠ key e) →
      (entries l).map (fun x => if key x = key e then e else x) = entries l := by
    intro l hl
    refine (map_congr_left (fun x hx => ?_)).trans (map_id _)
    rw [if_neg (hl x hx)]
    rfl
  have hbefore : ∀ x ∈ entries (slots.take p), key x ≠ key e := by
    intro x hx hkx
    obtain ⟨q, hq⟩ := mem_entries.mp hx
    rw [getElem?_take] at hq
    split_ifs at hq with hqp
    exact absurd (hp.distinct q p x e₀ hq h (hkx.trans hk.symm)) (Nat.ne_of_lt hqp)
  have hafter : ∀ x ∈ entries (slots.drop (p + 1)), key x ≠ key e := by
    intro x hx hkx
    obtain ⟨q, hq⟩ := mem_entries.mp hx
    rw [getElem?_drop] at hq
    have heq := hp.distinct (p + 1 + q) p x e₀ hq h (hkx.trans hk.symm)
    omega
  rw [hset]
  conv_rhs => rw [hsplit]
  rw [entries_append, entries_append, entries_some, entries_some, map_append, map_cons,
    hsame _ hbefore, hsame _ hafter, if_pos hk]

theorem any_key_iff : (entries slots).any (fun x => key x = key e) = true ↔ ∃ x ∈ entries slots, key x = key e := by
  simp

/-- **Storing an entry** updates the association list that the table holds. -/
theorem store_spec (hp : Placed key hash slots) (h : store key hash replace slots e = some slots') :
    Placed key hash slots' ∧ slots'.length = slots.length ∧
      (entries slots').Perm (upsert key replace (entries slots) e) := by
  unfold store at h
  split at h
  · exact absurd h (by simp)
  · rename_i i hprobe
    rcases hp.found hprobe with ⟨e₀, he₀, hk₀⟩ | ⟨hfree, habsent⟩
    · have hany : (entries slots).any (fun x => key x = key e) = true :=
        any_key_iff.mpr ⟨e₀, mem_entries.mpr ⟨_, he₀⟩, hk₀⟩
      rw [he₀] at h
      dsimp only at h
      rw [upsert, if_pos hany]
      split_ifs at h with hreplace
      · cases h
        rw [if_pos hreplace, hp.entries_set_held he₀ hk₀]
        exact ⟨hp.set hprobe, length_set, List.Perm.refl _⟩
      · cases h
        rw [if_neg hreplace]
        exact ⟨hp, rfl, List.Perm.refl _⟩
    · have hany : ¬ (entries slots).any (fun x => key x = key e) = true := by
        rw [any_key_iff]
        rintro ⟨x, hx, hk⟩
        exact habsent x hx hk
      rw [hfree] at h
      cases h
      rw [upsert, if_neg hany]
      exact ⟨hp.set hprobe, length_set, entries_set_free hfree e⟩

/-- Storing succeeds while a slot is free. -/
theorem store_isSome (hlt : (entries slots).length < slots.length) (replace : Bool) (e : ε) :
    (store key hash replace slots e).isSome = true := by
  -- otherwise every slot would be taken
  obtain ⟨p, hfree⟩ : ∃ p : Nat, slots[p]? = some none := by
    rw [← mem_iff_getElem?]
    by_contra hno
    refine absurd hlt (not_lt.mpr (le_of_eq ?_))
    rw [eq_comm, reduceOption_length_eq_iff]
    intro slot hslot
    rw [Option.isSome_iff_ne_none]
    rintro rfl
    exact hno hslot
  have hsome : (probe key hash slots (key e)).isSome = true := probe_isSome hfree (key e)
  obtain ⟨i, hprobe⟩ := Option.isSome_iff_exists.mp hsome
  unfold store
  rw [hprobe]
  dsimp only
  split
  · split_ifs <;> rfl
  · rfl

/-! ## The association list -/

theorem upsert_perm {l l' : List ε} (h : l.Perm l') (replace : Bool) (e : ε) :
    (upsert key replace l e).Perm (upsert key replace l' e) := by
  have hany : l.any (fun x => key x = key e) = l'.any (fun x => key x = key e) := by
    rw [Bool.eq_iff_iff]
    simp only [any_eq_true]
    exact exists_congr (fun x => and_congr_left (fun _ => h.mem_iff))
  unfold upsert
  rw [hany]
  split_ifs
  · exact h.map _
  · exact h
  · exact h.append_right [e]

/-- A function that keeps the keys may be applied before or after. -/
theorem upsert_map {δ : Type} {key' : δ → κ} {f : ε → δ} (hf : ∀ x, key' (f x) = key x) (replace : Bool)
    (l : List ε) (e : ε) : (upsert key replace l e).map f = upsert key' replace (l.map f) (f e) := by
  have hany : (l.map f).any (fun x => key' x = key' (f e)) = l.any (fun x => key x = key e) := by
    simp [any_map, Function.comp_def, hf]
  unfold upsert
  rw [hany]
  split_ifs
  · rw [map_map, map_map]
    refine map_congr_left (fun x _ => ?_)
    simp only [Function.comp_apply, hf]
    split_ifs <;> rfl
  · rfl
  · simp

end LinearProbing

end Builra
