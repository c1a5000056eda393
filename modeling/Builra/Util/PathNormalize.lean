import Builra.Util.PathComponents
import Builra.Lib.Wildcard
import Mathlib.Data.List.TakeWhile

namespace Builra.Path

open List

/-!
# `Util.PathNormalize` — normalization

`normalize` takes the components of a path one by one and builds the result as a path, with `join` and `dirname`; a path
that needs no change is returned as it is. The rule itself is about lists of components (`resolve`).
-/

/-! ## The source -/

def dot : List UInt8 := [46]

def dotDot : List UInt8 := [46, 46]

/-- Enumerate the elements of a string separated by the path separator, except the empty ones. -/
def enumerateSplits : List UInt8 → List (List UInt8)
  | [] => []
  | b :: rest =>
    let lhs := (b :: rest).takeWhile (fun c => c ≠ pathSeparatorUTF8)
    let rhs := ((b :: rest).dropWhile (fun c => c ≠ pathSeparatorUTF8)).tail
    if lhs = [] then enumerateSplits rhs else lhs :: enumerateSplits rhs
termination_by str => str.length
decreasing_by
  all_goals
    have := (dropWhile_suffix (fun c => decide (c ≠ pathSeparatorUTF8)) (l := b :: rest)).length_le
    simp only [length_tail, length_cons] at this ⊢
    omega

variable (str : List UInt8)

/-- All "natural" components of the represented path (including empty ones). -/
def allComponents : List (List UInt8) :=
  (if isAbsolute str then str.drop 1 else str).splitOn pathSeparatorUTF8

/-- Check if the path is currently normalized. -/
def isNormalized : Bool :=
  (allComponents str).all (fun c => c ≠ [] && c ≠ dot && c ≠ dotDot)

def canTraverseUpward : Bool := str ≠ [] && basename str ≠ dotDot

/-- The body of the loop of `normalize`. -/
def addComponent (removeDotDot : Bool) (result component : List UInt8) : List UInt8 :=
  if component = [] ∨ component = dot then result
  else if component = dotDot then
    if removeDotDot && canTraverseUpward result then dirname result else join result component
  else join result component

/-- The loop of `normalize`. -/
def rebuild (removeDotDotFromRelativePath : Bool) (str : List UInt8) : List UInt8 :=
  (enumerateSplits str).foldl (addComponent (isAbsolute str || removeDotDotFromRelativePath))
    (if isAbsolute str then [pathSeparatorUTF8] else [])

/-- Return a normalized version of the path. -/
def normalize (removeDotDotFromRelativePath : Bool := true) : List UInt8 :=
  if str = dot then str
  else if isNormalized str then str
  else rebuild removeDotDotFromRelativePath str

/-- Return a version of the path that always has any spurious trailing slash removed. -/
def withoutTrailingSlash : List UInt8 :=
  if ¬ isRoot str ∧ (str.getLast? = some pathSeparatorUTF8 ∨ str.getLast? = some 92) then str.dropLast else str

/-- The body of the loop of `join`. -/
def joinComponent (result component : List UInt8) : List UInt8 :=
  if component = dot then result
  else if component = dotDot ∧ ¬ (result = [] ∨ basename result = dotDot ∨ basename result = dot) then dirname result
  else if result = [] then component
  else result ++ pathSeparatorUTF8 :: component

/-- `join` with `normalize`. -/
def joinNormalizing (str rhs : List UInt8) : List UInt8 :=
  if str = [] ∨ isAbsolute rhs then (if isNormalized rhs then rhs else normalize rhs)
  else if rhs = [] then str
  else if isNormalized rhs then join str rhs
  else (enumerateSplits rhs).foldl joinComponent (withoutTrailingSlash str)

/-! ## The rule -/

variable (absolute : Bool)

/-- What becomes of the components that are kept when the next one is reached. -/
def resolveComponent (kept : List (List UInt8)) (component : List UInt8) : List (List UInt8) :=
  if component = [] ∨ component = dot then kept
  else if component = dotDot then
    match kept.getLast? with
    | none => if absolute then [] else [dotDot]
    | some last => if last = dotDot then kept ++ [dotDot] else kept.dropLast
  else kept ++ [component]

def resolve (components : List (List UInt8)) : List (List UInt8) :=
  components.foldl (resolveComponent absolute) []

def normalForm : List UInt8 :=
  render (isAbsolute str) (resolve (isAbsolute str) (str.splitOn pathSeparatorUTF8))

/-! ## Splitting -/

theorem notMem_of_mem_splitOn {str c : List UInt8} (h : c ∈ str.splitOn pathSeparatorUTF8) : pathSeparatorUTF8 ∉ c :=
  Wildcard.notMem_of_mem_splitOn h

theorem takeWhile_append_cons {x c : List UInt8} (hx : pathSeparatorUTF8 ∉ x) :
    (x ++ pathSeparatorUTF8 :: c).takeWhile (fun b => b ≠ pathSeparatorUTF8) = x ∧
      (x ++ pathSeparatorUTF8 :: c).dropWhile (fun b => b ≠ pathSeparatorUTF8) = pathSeparatorUTF8 :: c := by
  have hne : ∀ b ∈ x, decide (b ≠ pathSeparatorUTF8) = true := by
    intro b hb
    exact decide_eq_true (fun h => hx (h ▸ hb))
  constructor
  · rw [takeWhile_append_of_pos hne, takeWhile_cons_of_neg (by simp), append_nil]
  · rw [dropWhile_append_of_pos hne, dropWhile_cons_of_neg (by simp)]

theorem enumerateSplits_eq :
    enumerateSplits str = (str.splitOn pathSeparatorUTF8).filter (fun c => c ≠ []) := by
  fun_induction enumerateSplits str with
  | case1 => rfl
  | case2 b rest lhs rhs hlhs ih =>
    -- the string starts with a separator
    have hb : b = pathSeparatorUTF8 := by
      by_contra hb
      exact absurd hlhs (by simp [lhs, hb])
    subst hb
    have hrhs : rhs = rest := by simp [rhs]
    rw [ih, hrhs, splitOn_cons_eq_if_modifyHead, if_pos (beq_self_eq_true _)]
    simp
  | case3 b rest lhs rhs hlhs ih =>
    rw [ih]
    by_cases h : pathSeparatorUTF8 ∈ b :: rest
    · obtain ⟨x, c, hstr, hx⟩ := eq_append_cons_of_mem h
      have hcut := takeWhile_append_cons (c := c) hx
      have hl : lhs = x := by
        show (b :: rest).takeWhile _ = x
        rw [hstr]
        exact hcut.1
      have hr : rhs = c := by
        show ((b :: rest).dropWhile _).tail = c
        rw [hstr, hcut.2, tail_cons]
      rw [hstr, splitOn_append_cons_self_of_not_mem hx, hr, ← hl]
      exact (filter_cons_of_pos (by simpa using hlhs)).symm
    · have hall : ∀ d ∈ b :: rest, decide (d ≠ pathSeparatorUTF8) = true :=
        fun d hd => decide_eq_true (fun hsep => h (hsep ▸ hd))
      have hl : lhs = b :: rest := takeWhile_eq_self_iff.mpr hall
      have hr : rhs = [] := by
        show ((b :: rest).dropWhile _).tail = []
        rw [dropWhile_eq_nil_iff.mpr hall]
        rfl
      rw [splitOn_eq_singleton h, hr, hl]
      rfl

theorem isComponent_of_mem_enumerateSplits {str c : List UInt8} (h : c ∈ enumerateSplits str) : IsComponent c := by
  rw [enumerateSplits_eq] at h
  exact ⟨by simpa using (mem_filter.mp h).2, notMem_of_mem_splitOn (mem_filter.mp h).1⟩

theorem foldl_filter_ne_nil {f : List (List UInt8) → List UInt8 → List (List UInt8)} (hf : ∀ kept, f kept [] = kept)
    (components kept : List (List UInt8)) :
    (components.filter (fun c => c ≠ [])).foldl f kept = components.foldl f kept := by
  induction components generalizing kept with
  | nil => rfl
  | cons c components ih =>
    by_cases hc : c = []
    · rw [filter_cons_of_neg (by simpa using hc), ih, foldl_cons, hc, hf]
    · rw [filter_cons_of_pos (by simpa using hc), foldl_cons, foldl_cons, ih]

theorem resolveComponent_nil (kept : List (List UInt8)) : resolveComponent absolute kept [] = kept :=
  if_pos (.inl rfl)

theorem resolve_enumerateSplits (str : List UInt8) :
    resolve absolute (enumerateSplits str) = resolve absolute (str.splitOn pathSeparatorUTF8) := by
  rw [enumerateSplits_eq]
  exact foldl_filter_ne_nil (resolveComponent_nil absolute) _ _

/-! ## The loop of `normalize` follows the rule -/

section Rebuild

variable {absolute : Bool} {c : List UInt8} {kept components : List (List UInt8)}

theorem isComponent_dotDot : IsComponent dotDot := ⟨by decide, by decide⟩

/-- A component is left out, or removes the last one, or is kept; `..` is kept at the start of a relative path and behind
another `..`. -/
theorem resolveComponent_cases (absolute : Bool) (kept : List (List UInt8)) (c : List UInt8) :
    resolveComponent absolute kept c = kept ∨ resolveComponent absolute kept c = kept.dropLast ∨
      resolveComponent absolute kept c = kept ++ [c] ∧ c ≠ [] ∧ c ≠ dot ∧
        (c = dotDot → kept = [] ∧ absolute = false ∨ kept.getLast? = some dotDot) := by
  unfold resolveComponent
  by_cases hskip : c = [] ∨ c = dot
  · exact .inl (if_pos hskip)
  · rw [if_neg hskip]
    obtain ⟨hne, hdot⟩ := not_or.mp hskip
    by_cases hup : c = dotDot
    · rw [if_pos hup]
      rcases eq_nil_or_concat kept with rfl | ⟨kept, last, rfl⟩
      · cases absolute with
        | true => exact .inl rfl
        | false => exact .inr (.inr ⟨by rw [hup]; rfl, hne, hdot, fun _ => .inl ⟨rfl, rfl⟩⟩)
      · rw [concat_eq_append, getLast?_concat]
        dsimp only
        by_cases hlast : last = dotDot
        · rw [if_pos hlast, hup]
          exact .inr (.inr ⟨rfl, hup ▸ hne, hup ▸ hdot, fun _ => .inr (congrArg some hlast)⟩)
        · rw [if_neg hlast]
          exact .inr (.inl rfl)
    · rw [if_neg hup]
      exact .inr (.inr ⟨rfl, hne, hdot, fun h => absurd h hup⟩)

theorem isComponent_resolveComponent (h : ∀ d ∈ kept, IsComponent d) (hc : pathSeparatorUTF8 ∉ c) :
    ∀ d ∈ resolveComponent absolute kept c, IsComponent d := by
  intro d hd
  rcases resolveComponent_cases absolute kept c with heq | heq | ⟨heq, hne, -, -⟩
  · exact h d (heq ▸ hd)
  · rw [heq] at hd
    exact h d (dropLast_subset _ hd)
  · rw [heq] at hd
    rcases mem_append.mp hd with hd | hd
    · exact h d hd
    · obtain rfl := mem_singleton.mp hd
      exact ⟨hne, hc⟩

theorem isComponent_resolve (hcomponents : ∀ d ∈ components, pathSeparatorUTF8 ∉ d) :
    ∀ d ∈ resolve absolute components, IsComponent d := by
  unfold resolve
  induction components using List.reverseRecOn with
  | nil => exact fun d hd => absurd hd not_mem_nil
  | append_singleton components c ih =>
    rw [foldl_append]
    exact isComponent_resolveComponent (ih (fun d hd => hcomponents d (mem_append_left _ hd)))
      (hcomponents c (by simp))

theorem canTraverseUpward_render (h : ∀ d ∈ kept, IsComponent d) :
    canTraverseUpward (render absolute kept) =
      match kept.getLast? with
      | none => absolute
      | some last => decide (last ≠ dotDot) := by
  unfold canTraverseUpward
  rcases eq_nil_or_concat kept with rfl | ⟨kept, last, rfl⟩
  · rw [render_nil]
    cases absolute with
    | false => rfl
    | true => rfl
  · rw [concat_eq_append] at h ⊢
    rw [basename_render kept (h last (by simp)).notMem, getLast?_concat]
    have hne := @render_ne_nil absolute _ h (by simp)
    simp [hne]

theorem addComponent_render (h : ∀ d ∈ kept, IsComponent d) (hc : pathSeparatorUTF8 ∉ c) :
    addComponent true (render absolute kept) c = render absolute (resolveComponent absolute kept c) := by
  unfold addComponent resolveComponent
  by_cases hskip : c = [] ∨ c = dot
  · rw [if_pos hskip, if_pos hskip]
  · have hcomp : IsComponent c := ⟨fun hnil => hskip (.inl hnil), hc⟩
    rw [if_neg hskip, if_neg hskip]
    by_cases hup : c = dotDot
    · rw [if_pos hup, if_pos hup, Bool.true_and, canTraverseUpward_render h, join_render h hcomp,
        dirname_render_dropLast h, hup]
      rcases eq_nil_or_concat kept with rfl | ⟨kept, last, rfl⟩
      · cases absolute with
        | false => rfl
        | true => rfl
      · rw [concat_eq_append, getLast?_concat]
        by_cases hlast : last = dotDot
        · simp [hlast]
        · simp [hlast]
    · rw [if_neg hup, if_neg hup, join_render h hcomp]

theorem rebuild_eq (str : List UInt8) : rebuild true str = normalForm str := by
  have hcomponents : ∀ c ∈ enumerateSplits str, pathSeparatorUTF8 ∉ c :=
    fun c hc => (isComponent_of_mem_enumerateSplits hc).notMem
  unfold rebuild normalForm
  rw [Bool.or_true, ← resolve_enumerateSplits, ← render_nil]
  generalize isAbsolute str = absolute
  generalize enumerateSplits str = components at hcomponents
  unfold resolve
  induction components using List.reverseRecOn with
  | nil => rfl
  | append_singleton components c ih =>
    have hinit : ∀ d ∈ components, pathSeparatorUTF8 ∉ d := fun d hd => hcomponents d (mem_append_left _ hd)
    rw [foldl_append, foldl_append, ih hinit]
    exact addComponent_render (isComponent_resolve hinit) (hcomponents c (by simp))

end Rebuild

/-! ## Normalized paths -/

section Resolved

variable {absolute : Bool} {c : List UInt8} {kept : List (List UInt8)}

/-- Components that the rule leaves as they are: `..` stands at the front of a relative path only. -/
structure Resolved (absolute : Bool) (kept : List (List UInt8)) : Prop where
  isComponent : ∀ d ∈ kept, IsComponent d ∧ d ≠ dot
  dotDot_front : ∀ front, front ++ [dotDot] <+: kept → absolute = false ∧ ∀ d ∈ front, d = dotDot

theorem Resolved.of_append {more : List (List UInt8)} (h : Resolved absolute (kept ++ more)) :
    Resolved absolute kept where
  isComponent d hd := h.isComponent d (mem_append_left _ hd)
  dotDot_front front hfront := h.dotDot_front front (hfront.trans (prefix_append _ _))

theorem Resolved.resolveComponent (h : Resolved absolute kept) (hc : pathSeparatorUTF8 ∉ c) :
    Resolved absolute (resolveComponent absolute kept c) := by
  rcases resolveComponent_cases absolute kept c with heq | heq | ⟨heq, hne, hdot, hup⟩
  · rw [heq]
    exact h
  · rw [heq]
    obtain ⟨more, hmore⟩ := dropLast_prefix kept
    rw [← hmore] at h
    exact h.of_append
  · rw [heq]
    refine ⟨?_, ?_⟩
    · intro d hd
      rcases mem_append.mp hd with hd | hd
      · exact h.isComponent d hd
      · exact mem_singleton.mp hd ▸ ⟨⟨hne, hc⟩, hdot⟩
    · intro front hfront
      rcases prefix_concat_iff.mp hfront with hfront | hfront
      · obtain ⟨rfl, hdd⟩ := append_inj' hfront rfl
        obtain ⟨rfl, habs⟩ | hlast := hup (List.cons.inj hdd).1.symm
        · exact ⟨habs, fun d hd => absurd hd not_mem_nil⟩
        · obtain ⟨front', rfl⟩ := getLast?_eq_some_iff.mp hlast
          obtain ⟨habs, hall⟩ := h.dotDot_front front' (prefix_refl _)
          refine ⟨habs, ?_⟩
          intro d hd
          rcases mem_append.mp hd with hd | hd
          · exact hall d hd
          · exact mem_singleton.mp hd
      · exact h.dotDot_front front hfront

theorem resolved_resolve (components : List (List UInt8)) (hcomponents : ∀ d ∈ components, pathSeparatorUTF8 ∉ d) :
    Resolved absolute (resolve absolute components) := by
  unfold resolve
  induction components using List.reverseRecOn with
  | nil =>
    refine ⟨fun d hd => absurd hd not_mem_nil, ?_⟩
    intro front hfront
    exact absurd (prefix_nil.mp hfront) (by simp)
  | append_singleton components c ih =>
    rw [foldl_append]
    exact (ih (fun d hd => hcomponents d (mem_append_left _ hd))).resolveComponent (hcomponents c (by simp))

/-- The rule keeps resolved components. -/
theorem Resolved.resolve (h : Resolved absolute kept) : resolve absolute kept = kept := by
  unfold Path.resolve
  induction kept using List.reverseRecOn with
  | nil => rfl
  | append_singleton kept c ih =>
    rw [foldl_append, ih h.of_append, foldl_cons, foldl_nil]
    obtain ⟨⟨hne, -⟩, hdot⟩ := h.isComponent c (by simp)
    unfold Path.resolveComponent
    rw [if_neg (not_or_intro hne hdot)]
    by_cases hup : c = dotDot
    · subst hup
      obtain ⟨habs, hall⟩ := h.dotDot_front kept (prefix_refl _)
      rw [if_pos rfl, habs]
      rcases eq_nil_or_concat kept with rfl | ⟨kept, last, rfl⟩
      · rfl
      · have hlast : last = dotDot := hall last (by simp)
        rw [concat_eq_append, getLast?_concat]
        exact if_pos hlast
    · exact if_neg hup

theorem isAbsolute_render (h : ∀ d ∈ kept, IsComponent d) : isAbsolute (render absolute kept) = absolute := by
  cases absolute with
  | true => exact isAbsolute_render_true kept
  | false =>
    cases kept with
    | nil => rfl
    | cons c kept =>
      obtain ⟨b, c, rfl⟩ := exists_cons_of_ne_nil (h c mem_cons_self).ne_nil
      have hb : b ≠ pathSeparatorUTF8 := fun hb => (h (b :: c) mem_cons_self).notMem (hb ▸ mem_cons_self)
      have hhead : (render false ((b :: c) :: kept)).head? = some b := by
        unfold render List.intercalate
        cases kept with
        | nil => rfl
        | cons d kept => rfl
      simp [isAbsolute, hhead, hb]

theorem resolve_splitOn_render (h : ∀ d ∈ kept, IsComponent d) :
    resolve absolute ((render absolute kept).splitOn pathSeparatorUTF8) = resolve absolute kept := by
  have hroot : ∀ l : List UInt8, resolve absolute ((pathSeparatorUTF8 :: l).splitOn pathSeparatorUTF8) =
      resolve absolute (l.splitOn pathSeparatorUTF8) := by
    intro l
    rw [splitOn_cons_eq_if_modifyHead, if_pos (beq_self_eq_true _)]
    unfold resolve
    rw [foldl_cons, resolveComponent_nil]
  have hinter : resolve absolute (([pathSeparatorUTF8].intercalate kept).splitOn pathSeparatorUTF8) =
      resolve absolute kept := by
    by_cases hne : kept = []
    · subst hne
      exact resolveComponent_nil absolute []
    · rw [splitOn_intercalate h hne]
  cases absolute with
  | true => exact (hroot _).trans hinter
  | false => exact hinter

theorem Resolved.normalForm (h : Resolved absolute kept) : normalForm (render absolute kept) = render absolute kept := by
  have hcomp : ∀ d ∈ kept, IsComponent d := fun d hd => (h.isComponent d hd).1
  unfold Path.normalForm
  rw [isAbsolute_render hcomp, resolve_splitOn_render hcomp, h.resolve]

theorem resolve_of_names {components : List (List UInt8)}
    (h : ∀ c ∈ components, c ≠ [] ∧ c ≠ dot ∧ c ≠ dotDot) : resolve absolute components = components := by
  unfold Path.resolve
  induction components using List.reverseRecOn with
  | nil => rfl
  | append_singleton components c ih =>
    obtain ⟨hne, hdot, hup⟩ := h c (by simp)
    rw [foldl_append, ih (fun d hd => h d (mem_append_left _ hd))]
    unfold Path.resolveComponent
    rw [foldl_cons, foldl_nil, if_neg (not_or_intro hne hdot), if_neg hup]

theorem isNormalized_iff (str : List UInt8) :
    isNormalized str = true ↔ ∀ c ∈ allComponents str, c ≠ [] ∧ c ≠ dot ∧ c ≠ dotDot := by
  unfold isNormalized
  rw [all_eq_true]
  apply forall₂_congr
  intro c _
  simp only [Bool.and_eq_true, decide_eq_true_eq, and_assoc]

theorem normalForm_of_isNormalized {str : List UInt8} (h : isNormalized str = true) : normalForm str = str := by
  rw [isNormalized_iff] at h
  unfold allComponents at h
  unfold normalForm
  cases habs : isAbsolute str with
  | false =>
    rw [habs] at h
    have hresolve : resolve false (str.splitOn pathSeparatorUTF8) = str.splitOn pathSeparatorUTF8 :=
      resolve_of_names h
    rw [hresolve]
    exact intercalate_splitOn pathSeparatorUTF8
  | true =>
    obtain ⟨rest, rfl⟩ : ∃ rest, str = pathSeparatorUTF8 :: rest := by
      cases str with
      | nil => exact absurd habs (by decide)
      | cons b rest =>
        have hb : b = pathSeparatorUTF8 := by simpa [isAbsolute] using habs
        exact ⟨rest, by rw [hb]⟩
    rw [habs] at h
    have hsplit : (pathSeparatorUTF8 :: rest).splitOn pathSeparatorUTF8 = [] :: rest.splitOn pathSeparatorUTF8 := by
      rw [splitOn_cons_eq_if_modifyHead, if_pos (beq_self_eq_true _)]
    have hresolve : resolve true ([] :: rest.splitOn pathSeparatorUTF8) = rest.splitOn pathSeparatorUTF8 :=
      resolve_of_names h
    rw [hsplit, hresolve]
    exact congrArg (pathSeparatorUTF8 :: ·) (intercalate_splitOn pathSeparatorUTF8)

theorem normalize_eq_normalForm {str : List UInt8} (h : str ≠ dot) : normalize str = normalForm str := by
  unfold normalize
  rw [if_neg h]
  by_cases hnorm : isNormalized str
  · rw [if_pos hnorm, normalForm_of_isNormalized hnorm]
  · rw [if_neg hnorm, rebuild_eq]

/-- The components that a path has after normalization. -/
def resolved (str : List UInt8) : List (List UInt8) := resolve (isAbsolute str) (str.splitOn pathSeparatorUTF8)

theorem resolved_resolved (str : List UInt8) : Resolved (isAbsolute str) (resolved str) :=
  resolved_resolve _ (fun _ hd => notMem_of_mem_splitOn hd)

theorem normalForm_eq (str : List UInt8) : normalForm str = render (isAbsolute str) (resolved str) := rfl

theorem normalize_normalize (str : List UInt8) : normalize (normalize str) = normalize str := by
  have hfixed : ∀ {n}, normalForm n = n → normalize n = n := by
    intro n hn
    by_cases hdot : n = dot
    · exact if_pos hdot
    · rw [normalize_eq_normalForm hdot, hn]
  by_cases hdot : str = dot
  · have hstr : normalize str = str := if_pos hdot
    rw [hstr, hstr]
  · rw [normalize_eq_normalForm hdot]
    exact hfixed (resolved_resolved str).normalForm

end Resolved

end Builra.Path
