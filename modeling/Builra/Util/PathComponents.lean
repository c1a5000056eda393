import Builra.Util.Path
import Builra.Lib.Climb
import Builra.Lib.Separated

namespace Builra.Path

open List

/-!
# `Util.PathComponents` — paths as sequences of components

The operations of `Util.Path` look for the last separator in the bytes of a path. Here they are stated for a path that is
put together from its components (`render`): the base name is the last component, and the parent directory is the path
of the others.
-/

/-- A component: a name that is not empty and has no separator. -/
structure IsComponent (c : List UInt8) : Prop where
  ne_nil : c ≠ []
  notMem : pathSeparatorUTF8 ∉ c

/-- The path with the given components. -/
def render (absolute : Bool) (components : List (List UInt8)) : List UInt8 :=
  (if absolute then [pathSeparatorUTF8] else []) ++ [pathSeparatorUTF8].intercalate components

/-! ## The last separator -/

section LastSeparator

variable {x c : List UInt8}

theorem lastIndex_append (x : List UInt8) (hc : pathSeparatorUTF8 ∉ c) :
    lastIndex (x ++ pathSeparatorUTF8 :: c) pathSeparatorUTF8 = some x.length := by
  have hlen : (x ++ pathSeparatorUTF8 :: c).length = (x.length + 1) + c.length := by
    simp only [length_append, length_cons]
    omega
  unfold lastIndex
  rw [hlen, range_add, reverse_append, find?_append]
  have hbehind : ((List.range c.length).map (x.length + 1 + ·)).reverse.find?
      (fun idx => (x ++ pathSeparatorUTF8 :: c)[idx]? = some pathSeparatorUTF8) = none := by
    rw [find?_eq_none]
    intro idx hidx
    obtain ⟨k, -, rfl⟩ := mem_map.mp (mem_reverse.mp hidx)
    have hget : (x ++ pathSeparatorUTF8 :: c)[x.length + 1 + k]? = (c)[k]? := by
      rw [getElem?_append_right (by omega), show x.length + 1 + k - x.length = k + 1 by omega,
        getElem?_cons_succ]
    rw [hget, decide_eq_true_eq]
    intro hk
    exact hc (mem_of_getElem? hk)
  rw [hbehind, Option.none_or, range_succ, reverse_append]
  exact find?_cons_of_pos (by simp)

theorem lastIndex_of_notMem (hc : pathSeparatorUTF8 ∉ c) : lastIndex c pathSeparatorUTF8 = none := by
  unfold lastIndex
  rw [find?_eq_none]
  intro idx _
  rw [decide_eq_true_eq]
  intro hidx
  exact hc (mem_of_getElem? hidx)

theorem split_append (x : List UInt8) (hc : pathSeparatorUTF8 ∉ c) :
    split (x ++ pathSeparatorUTF8 :: c) = (if x = [] then [pathSeparatorUTF8] else x, c) := by
  have hdrop : (x ++ pathSeparatorUTF8 :: c).drop (x.length + 1) = c := by
    rw [← drop_drop, drop_left, drop_one, tail_cons]
  unfold split
  rw [lastIndex_append x hc]
  dsimp only
  rw [hdrop, take_left]
  cases x with
  | nil => rfl
  | cons b x => rfl

theorem split_of_notMem (hc : pathSeparatorUTF8 ∉ c) : split c = ([], c) := by
  unfold split
  rw [lastIndex_of_notMem hc]

theorem dirname_append (hx : x ≠ []) (hc : pathSeparatorUTF8 ∉ c) : dirname (x ++ pathSeparatorUTF8 :: c) = x := by
  unfold dirname
  rw [split_append x hc, if_neg hx]

theorem dirname_root_append (hc : pathSeparatorUTF8 ∉ c) :
    dirname (pathSeparatorUTF8 :: c) = [pathSeparatorUTF8] := by
  unfold dirname
  rw [← nil_append (pathSeparatorUTF8 :: c), split_append [] hc, if_pos rfl]

theorem dirname_of_notMem (hc : pathSeparatorUTF8 ∉ c) : dirname c = [] := by
  unfold dirname
  rw [split_of_notMem hc]

theorem basename_append (x : List UInt8) (hc : pathSeparatorUTF8 ∉ c) :
    basename (x ++ pathSeparatorUTF8 :: c) = c := by
  unfold basename
  rw [lastIndex_append x hc]
  show (x ++ pathSeparatorUTF8 :: c).drop (x.length + 1) = c
  rw [← drop_drop, drop_left, drop_one, tail_cons]

theorem basename_of_notMem (hc : pathSeparatorUTF8 ∉ c) : basename c = c := by
  unfold basename
  rw [lastIndex_of_notMem hc]

/-- A path has no separator, or a last one. -/
theorem separator_cases (str : List UInt8) :
    pathSeparatorUTF8 ∉ str ∨ ∃ x c, str = x ++ pathSeparatorUTF8 :: c ∧ pathSeparatorUTF8 ∉ c := by
  by_cases h : pathSeparatorUTF8 ∈ str
  · obtain ⟨c, x, hrev, hc⟩ := eq_append_cons_of_mem (mem_reverse.mpr h)
    refine .inr ⟨x.reverse, c.reverse, ?_, by simpa using hc⟩
    rw [← reverse_reverse str, hrev]
    simp
  · exact .inl h

theorem isAbsolute_append (hx : x ≠ []) (more : List UInt8) : isAbsolute (x ++ more) = isAbsolute x := by
  obtain ⟨b, x, rfl⟩ := exists_cons_of_ne_nil hx
  rfl

/-- An absolute path has a last separator: the first byte, or one behind an absolute path. -/
theorem absolute_cases {str : List UInt8} (habs : isAbsolute str = true) :
    ∃ x c, str = x ++ pathSeparatorUTF8 :: c ∧ pathSeparatorUTF8 ∉ c ∧ (x = [] ∨ isAbsolute x = true) := by
  rcases separator_cases str with hsep | ⟨x, c, rfl, hc⟩
  · cases str with
    | nil => exact absurd habs (by decide)
    | cons b str =>
      have hb : b = pathSeparatorUTF8 := by simpa [isAbsolute] using habs
      exact absurd (hb ▸ mem_cons_self) hsep
  · refine ⟨x, c, rfl, hc, ?_⟩
    by_cases hx : x = []
    · exact .inl hx
    · exact .inr (isAbsolute_append hx _ ▸ habs)

end LastSeparator

/-! ## Components -/

section Render

variable {absolute : Bool} {c : List UInt8} {components : List (List UInt8)}

theorem render_nil : render absolute [] = if absolute then [pathSeparatorUTF8] else [] := append_nil _

/-- Behind other components, or behind the root, a component follows a separator. -/
theorem render_append_singleton (hne : components ≠ []) (c : List UInt8) :
    render absolute (components ++ [c]) = render absolute components ++ pathSeparatorUTF8 :: c := by
  unfold render
  rw [Separated.intercalate_append_singleton hne, append_assoc]

theorem render_singleton (absolute : Bool) (c : List UInt8) :
    render absolute [c] = (if absolute then [pathSeparatorUTF8] else []) ++ c := by
  simp [render, List.intercalate]

theorem render_ne_nil (h : ∀ d ∈ components, IsComponent d) (hne : components ≠ []) :
    render absolute components ≠ [] := by
  obtain ⟨d, components, rfl⟩ := exists_cons_of_ne_nil hne
  have hd := (h d mem_cons_self).ne_nil
  intro hnil
  have hflat := (append_eq_nil_iff.mp hnil).2
  unfold List.intercalate at hflat
  rw [flatten_eq_nil_iff] at hflat
  refine hd (hflat d ?_)
  cases components with
  | nil => exact mem_singleton_self d
  | cons e components => exact mem_cons_self

theorem render_true_ne_nil (components : List (List UInt8)) : render true components ≠ [] := cons_ne_nil _ _

theorem isAbsolute_render_true (components : List (List UInt8)) : isAbsolute (render true components) = true := by
  simp [isAbsolute, render]

theorem render_eq_nil_iff (h : ∀ d ∈ components, IsComponent d) :
    render absolute components = [] ↔ absolute = false ∧ components = [] := by
  constructor
  · intro hnil
    have hcomponents : components = [] := by
      by_contra hne
      exact render_ne_nil h hne hnil
    subst hcomponents
    rw [render_nil] at hnil
    cases absolute with
    | false => exact ⟨rfl, rfl⟩
    | true => exact absurd hnil (cons_ne_nil _ _)
  · rintro ⟨rfl, rfl⟩
    rfl

theorem dirname_render (h : ∀ d ∈ components, IsComponent d) (hc : pathSeparatorUTF8 ∉ c) :
    dirname (render absolute (components ++ [c])) = render absolute components := by
  by_cases hne : components = []
  · subst hne
    rw [nil_append, render_singleton, render_nil]
    cases absolute with
    | false => exact dirname_of_notMem hc
    | true => exact dirname_root_append hc
  · rw [render_append_singleton hne]
    exact dirname_append (render_ne_nil h hne) hc

theorem dirname_render_nil : dirname (render absolute []) = render absolute [] := by
  cases absolute with
  | false => rfl
  | true => rfl

/-- The parent directory has all components but the last one. -/
theorem dirname_render_dropLast (h : ∀ d ∈ components, IsComponent d) :
    dirname (render absolute components) = render absolute components.dropLast := by
  rcases eq_nil_or_concat components with rfl | ⟨components, c, rfl⟩
  · exact dirname_render_nil
  · rw [concat_eq_append] at h ⊢
    rw [dropLast_concat]
    exact dirname_render (fun d hd => h d (mem_append_left _ hd)) (h c (by simp)).notMem

/-- Behind the root, the other components may be anything. -/
theorem dirname_render_true (components : List (List UInt8)) (hc : pathSeparatorUTF8 ∉ c) :
    dirname (render true (components ++ [c])) = render true components := by
  by_cases hne : components = []
  · subst hne
    rw [nil_append, render_singleton]
    exact dirname_root_append hc
  · rw [render_append_singleton hne]
    exact dirname_append (render_true_ne_nil components) hc

theorem basename_render (components : List (List UInt8)) (hc : pathSeparatorUTF8 ∉ c) :
    basename (render absolute (components ++ [c])) = c := by
  by_cases hne : components = []
  · subst hne
    rw [nil_append, render_singleton]
    cases absolute with
    | false => exact basename_of_notMem hc
    | true => exact basename_append [] hc
  · rw [render_append_singleton hne]
    exact basename_append _ hc

theorem getLast?_render_append (components : List (List UInt8)) (hc : c ≠ []) :
    (render absolute (components ++ [c])).getLast? = c.getLast? := by
  by_cases hnil : components = []
  · subst hnil
    rw [nil_append, render_singleton, getLast?_append_of_ne_nil _ hc]
  · rw [render_append_singleton hnil, getLast?_append_of_ne_nil _ (cons_ne_nil _ _),
      getLast?_cons_of_ne_nil hc]

section

variable (h : ∀ d ∈ components, IsComponent d)
include h

/-- Only the root ends with a separator. -/
theorem getLast?_render (hne : components ≠ []) :
    (render absolute components).getLast? ≠ some pathSeparatorUTF8 := by
  rcases eq_nil_or_concat components with rfl | ⟨components, c, rfl⟩
  · exact absurd rfl hne
  · rw [concat_eq_append] at h ⊢
    obtain ⟨hcne, hcsep⟩ := h c (by simp)
    rw [getLast?_render_append components hcne]
    intro hsep
    exact hcsep (mem_of_getLast? hsep)

theorem join_render (hc : IsComponent c) :
    join (render absolute components) c = render absolute (components ++ [c]) := by
  have hrel : ¬ isAbsolute c = true := by
    obtain ⟨b, c, rfl⟩ := exists_cons_of_ne_nil hc.ne_nil
    simp only [isAbsolute, head?_cons, decide_eq_true_eq, Option.some.injEq]
    intro hb
    exact hc.notMem (hb ▸ mem_cons_self)
  unfold join
  by_cases hne : components = []
  · subst hne
    rw [nil_append, render_nil, render_singleton]
    cases absolute with
    | false => exact if_pos (.inl rfl)
    | true =>
      show (if [pathSeparatorUTF8] = [] ∨ isAbsolute c = true then c else _) = [pathSeparatorUTF8] ++ c
      rw [if_neg (not_or_intro (cons_ne_nil _ _) hrel), if_neg hc.ne_nil]
      exact if_pos rfl
  · rw [if_neg (not_or_intro (render_ne_nil h hne) hrel), if_neg hc.ne_nil, if_neg (getLast?_render h hne),
      render_append_singleton hne]

/-- The components can be read back from a path. -/
theorem splitOn_intercalate (hne : components ≠ []) :
    ([pathSeparatorUTF8].intercalate components).splitOn pathSeparatorUTF8 = components :=
  List.splitOn_intercalate pathSeparatorUTF8 (fun d hd => (h d hd).notMem) hne

theorem render_inj {others : List (List UInt8)}
    (h' : ∀ d ∈ others, IsComponent d) (heq : render absolute components = render absolute others) :
    components = others := by
  have hinter := append_cancel_left heq
  have hempty : ∀ {l : List (List UInt8)}, (∀ d ∈ l, IsComponent d) →
      [pathSeparatorUTF8].intercalate l = [] → l = [] := by
    intro l hl hnil
    by_contra hne
    exact @render_ne_nil false _ hl hne hnil
  by_cases hnil : components = []
  · subst hnil
    exact (hempty h' hinter.symm).symm
  · have hnil' : others ≠ [] := by
      rintro rfl
      exact hnil (hempty h hinter)
    rw [← splitOn_intercalate h hnil, hinter, splitOn_intercalate h' hnil']

end

end Render

end Builra.Path
