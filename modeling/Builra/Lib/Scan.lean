import Mathlib.Data.List.Infix

/-!
# `Lib.Scan` — scanning loops over the suffixes of a text

A cursor in a text is the suffix that is left. `scan stop` moves the cursor until the text is used up or `stop`
holds of what is left; `stop` sees the whole suffix, so it may look ahead. The rules say where a scan can end,
what it passes over, and when text behind the end of the scan does not matter to it.
-/

namespace Scan

open List

variable {α : Type*} {stop : List α → Bool} {l tail : List α}

/-- Advance until the text is used up or `stop` holds of what is left. -/
def scan (stop : List α → Bool) : List α → List α
  | [] => []
  | c :: cs => if stop (c :: cs) then c :: cs else scan stop cs

theorem scan_of_stop (h : stop l = true) : scan stop l = l := by
  cases l with
  | nil => rfl
  | cons c cs => simp only [scan, h, if_true]

theorem scan_cons_of_go {c : α} {cs : List α} (h : stop (c :: cs) = false) : scan stop (c :: cs) = scan stop cs := by
  simp only [scan, h, Bool.false_eq_true, if_false]

theorem scan_suffix (stop : List α → Bool) (l : List α) : scan stop l <:+ l := by
  induction l with
  | nil => exact suffix_rfl
  | cons c cs ih =>
    unfold scan
    split
    · exact suffix_rfl
    · exact ih.trans (suffix_cons c cs)

theorem scan_length_le (stop : List α → Bool) (l : List α) : (scan stop l).length ≤ l.length :=
  (scan_suffix stop l).length_le

/-- A scan ends at the end of the text or where it was told to stop. -/
theorem scan_stops (stop : List α → Bool) (l : List α) : scan stop l = [] ∨ stop (scan stop l) = true := by
  induction l with
  | nil => exact .inl rfl
  | cons c cs ih =>
    by_cases h : stop (c :: cs) = true
    · rw [scan_of_stop h]
      exact .inr h
    · rw [scan_cons_of_go (by simpa using h)]
      exact ih

/-- A scan that never stops uses up the text. -/
theorem scan_eq_nil (h : ∀ s, s <:+ l → s ≠ [] → stop s = false) : scan stop l = [] := by
  rcases scan_stops stop l with hnil | hstop
  · exact hnil
  · by_contra hne
    rw [h _ (scan_suffix stop l) hne] at hstop
    cases hstop

/-- What follows a text does not matter to a scan that ends in the text or where the rest begins, if it does not
matter to the test before that. -/
theorem scan_append (agree : ∀ s, s <:+ l → s ≠ [] → stop (s ++ tail) = stop s)
    (htail : scan stop l = [] → tail = [] ∨ stop tail = true) : scan stop (l ++ tail) = scan stop l ++ tail := by
  induction l with
  | nil =>
    rcases htail rfl with rfl | htail
    · rfl
    · exact scan_of_stop htail
  | cons c cs ih =>
    have hhead : stop (c :: (cs ++ tail)) = stop (c :: cs) := agree _ suffix_rfl (cons_ne_nil c cs)
    rw [cons_append]
    cases hstop : stop (c :: cs) with
    | true => rw [scan_of_stop hstop, scan_of_stop (hhead.trans hstop), cons_append]
    | false =>
      rw [scan_cons_of_go hstop] at htail ⊢
      rw [scan_cons_of_go (hhead.trans hstop)]
      exact ih (fun s hs hne => agree s (hs.trans (suffix_cons c cs)) hne) htail

/-- A scan passes over what it does not stop in. -/
theorem scan_append_of_go (h : ∀ s, s <:+ l → s ≠ [] → stop (s ++ tail) = false) :
    scan stop (l ++ tail) = scan stop tail := by
  induction l with
  | nil => rfl
  | cons c cs ih =>
    have hhead : stop (c :: (cs ++ tail)) = false := h _ suffix_rfl (cons_ne_nil c cs)
    rw [cons_append, scan_cons_of_go hhead]
    exact ih fun s hs hne => h s (hs.trans (suffix_cons c cs)) hne

/-- What a scan passes over, and that the test fails at each step of it. -/
theorem scan_passed (stop : List α → Bool) (l : List α) :
    ∃ passed, l = passed ++ scan stop l ∧ ∀ s, s <:+ passed → s ≠ [] → stop (s ++ scan stop l) = false := by
  induction l with
  | nil => exact ⟨[], rfl, fun s hs hne => absurd (suffix_nil.mp hs) hne⟩
  | cons c cs ih =>
    cases hstop : stop (c :: cs) with
    | true =>
      rw [scan_of_stop hstop]
      exact ⟨[], rfl, fun s hs hne => absurd (suffix_nil.mp hs) hne⟩
    | false =>
      obtain ⟨passed, hpassed, hgo⟩ := ih
      rw [scan_cons_of_go hstop]
      refine ⟨c :: passed, by rw [cons_append, ← hpassed], ?_⟩
      intro s hs hne
      rcases suffix_cons_iff.mp hs with rfl | hs
      · rw [cons_append, ← hpassed]
        exact hstop
      · exact hgo s hs hne

end Scan
