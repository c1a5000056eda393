import Builra.BuildSystem.StaleFileRemoval
import Builra.Lib.Separated
import Mathlib.Data.List.DropRight

namespace Builra

open List

/-!
# `BuildSystem.PathPrefix` — which paths `pathIsPrefixedByPath` finds under a root

It compares texts, and a separator at the end of the root counts as much as one between components: with it, the root
has only itself under it. `isPrefixed_iff_components` says for which paths and roots the answer is that of their
components.
-/

open Separated

namespace StaleFileRemoval

section

variable {p root : Path}

/-- A root without the separators at its end. -/
def stem (root : Path) : Path := root.rdropWhile (fun c => c = slash)

/-- How many separators a root ends in. -/
def trailing (root : Path) : Nat := (root.rtakeWhile (fun c => c = slash)).length

theorem root_eq (root : Path) : root = stem root ++ List.replicate (trailing root) slash := by
  have hseparators : root.rtakeWhile (fun c => c = slash) = List.replicate (trailing root) slash := by
    refine eq_replicate_iff.mpr ⟨rfl, fun c hc => ?_⟩
    have hslash := mem_rtakeWhile_imp hc
    rwa [decide_eq_true_iff] at hslash
  rw [← hseparators, stem, rdropWhile_append_rtakeWhile]

theorem stem_append_slash (p : Path) : stem (p ++ [slash]) = stem p := by
  rw [stem, stem, rdropWhile_concat, if_pos (decide_eq_true rfl)]

/-- The separators that a path starts with, and the rest. -/
theorem exists_separators (p : Path) : ∃ n rest, p = List.replicate n slash ++ rest ∧ rest.head? ≠ some slash := by
  induction p with
  | nil => exact ⟨0, [], rfl, fun h => nomatch h⟩
  | cons c p ih =>
    by_cases hc : c = slash
    · obtain ⟨n, rest, hp, hrest⟩ := ih
      exact ⟨n + 1, rest, by rw [hp, hc]; rfl, hrest⟩
    · exact ⟨0, c :: p, rfl, fun h => hc (Option.some.inj h)⟩

/-- The path starts with the text of the root up to its last component. What follows is separators only, of which the
    root has one more at most, or more of them than the root has and something else. -/
def SameText (p root : Path) : Prop :=
  ∃ n rest, p = stem root ++ (List.replicate n slash ++ rest) ∧ rest.head? ≠ some slash ∧
    (rest = [] → trailing root ≤ n + 1) ∧ (rest ≠ [] → trailing root < n)

theorem isPrefixed_iff_sameText : pathIsPrefixedByPath p root = true ↔ SameText p root := by
  rw [pathIsPrefixedByPath_iff]
  constructor
  · have hroot := root_eq root
    rintro (heq | heq | ⟨s, heq⟩)
    · refine ⟨trailing root, [], ?_, (fun h => nomatch h), fun _ => Nat.le_succ _, fun h => absurd rfl h⟩
      rw [append_nil, ← hroot]
      exact heq
    · have hpos : 0 < trailing root := by
        by_contra hzero
        rw [Nat.eq_zero_of_not_pos hzero, replicate_zero, append_nil] at hroot
        have hstem : stem root = p ++ [slash] := hroot.symm.trans heq.symm
        have hidem : stem (stem root) = stem root := rdropWhile_idempotent _ _
        rw [hstem, stem_append_slash] at hidem
        have hlen : (stem p).length ≤ p.length := (List.rdropWhile_prefix _ _).length_le
        rw [hidem, length_append, length_singleton] at hlen
        omega
      obtain ⟨n, hn⟩ := Nat.exists_eq_add_of_lt hpos
      rw [Nat.zero_add] at hn
      refine ⟨n, [], ?_, (fun h => nomatch h), fun _ => Nat.le_of_eq hn, fun h => absurd rfl h⟩
      rw [hn, replicate_succ', ← append_assoc] at hroot
      rw [append_nil]
      exact append_cancel_right (heq.trans hroot)
    · obtain ⟨k, rest, hs, hrest⟩ := exists_separators s
      refine ⟨trailing root + 1 + k, rest, ?_, hrest, fun _ => by omega, fun _ => by omega⟩
      have hreplicate : List.replicate (trailing root + 1 + k) slash
          = List.replicate (trailing root) slash ++ ([slash] ++ List.replicate k slash) := by
        rw [replicate_add, replicate_succ', append_assoc]
      rw [← heq, hs, hreplicate]
      conv_lhs => rw [hroot]
      simp only [append_assoc]
  · rintro ⟨n, rest, hp, hrest, hnil, hcons⟩
    have hroot := root_eq root
    rcases Nat.lt_or_ge (trailing root) n with hlt | hge
    · obtain ⟨k, hk⟩ := Nat.exists_eq_add_of_lt hlt
      refine .inr (.inr ⟨List.replicate k slash ++ rest, ?_⟩)
      have hreplicate : List.replicate n slash
          = List.replicate (trailing root) slash ++ ([slash] ++ List.replicate k slash) := by
        rw [hk, Nat.add_right_comm, replicate_add, replicate_succ', append_assoc]
      rw [hp, hreplicate]
      conv_lhs => rw [hroot]
      simp only [append_assoc]
    · have hempty : rest = [] := by
        by_contra hne
        exact Nat.not_lt.mpr hge (hcons hne)
      subst hempty
      rw [append_nil] at hp
      rcases Nat.lt_or_ge n (trailing root) with hlt | hle
      · refine .inr (.inl ?_)
        have hsucc : trailing root = n + 1 := Nat.le_antisymm (hnil rfl) hlt
        rw [hp, append_assoc, ← replicate_succ', ← hsucc, ← hroot]
      · left
        rw [← Nat.le_antisymm hle hge, ← hroot] at hp
        exact hp

/-! ## Components -/

theorem components_isPrefix (h : pathIsPrefixedByPath p root = true) :
    components slash root <+: components slash p := by
  rcases pathIsPrefixedByPath_iff.mp h with rfl | rfl | ⟨s, rfl⟩
  · exact prefix_rfl
  · rw [components_append_cons_sep, show components slash ([] : Path) = [] from rfl, append_nil]
  · rw [append_assoc, singleton_append, components_append_cons_sep]
    exact prefix_append _ _

end

/-- A path is found under a root just if it has the components of the root, unless it has them and is not the same
    text up to the last of them, or does not go on with more separators than the root has there. -/
theorem isPrefixed_iff_components (p root : Path) :
    (pathIsPrefixedByPath p root = true ↔ components slash root <+: components slash p) ↔
      (components slash root <+: components slash p → SameText p root) := by
  constructor
  · intro h hcomponents
    exact isPrefixed_iff_sameText.mp (h.mpr hcomponents)
  · intro h
    exact ⟨components_isPrefix, fun hcomponents => isPrefixed_iff_sameText.mpr (h hcomponents)⟩

/-- `/foo/bar` is not found under `/foo/`, though it is under `/foo`. -/
theorem trailing_separator_not_prefixed : ¬ ∀ p root : Path, p.head? = some slash → root.head? = some slash →
    (pathIsPrefixedByPath p root = true ↔ components slash root <+: components slash p) := by
  intro h
  have hiff := h (ascii "/foo/bar") (ascii "/foo/") rfl rfl
  revert hiff
  decide

end StaleFileRemoval

end Builra
