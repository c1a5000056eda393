import Builra.Util.PathNormalize
import Builra.Lib.Loop
import Mathlib.Data.Finset.Insert

namespace Builra.Path

open List

/-!
# `Util.PathAncestors` — ancestors of a path

The tests go up from a path by `dirname` and look at each directory on the way. They start with normalized absolute paths,
whose directories are the paths of fewer components, and end at the root. `ancestors` goes up from the listed paths as
they are: it never ends for a relative path, whose directories end with the empty path, and it collects directories that
are no ancestors where a path climbs.
-/

/-! ## The source -/

/-- A call of the recursion in `isAncestor`. -/
def isAncestorTurn (lhs rhs : List UInt8) : Bool ⊕ List UInt8 :=
  if isRoot rhs then .inl false
  else if lhs = dirname rhs then .inl true
  else .inr (dirname rhs)

variable (fuel : Nat)

/-- Check if the path is an ancestor of another path. -/
def isAncestor (self path : List UInt8) : Option Bool :=
  if ¬ (isAbsolute self ∧ isAbsolute path) then some false
  else Loop.run (isAncestorTurn (normalize self)) fuel (normalize path)

/-- Check if the path is an ancestor of another path or the same path. -/
def isAncestorOrEqual (self path : List UInt8) : Option Bool :=
  if ¬ (isAbsolute self ∧ isAbsolute path) then some false
  else if normalize self = normalize path then some true
  else isAncestor fuel (normalize self) (normalize path)

/-- The recursion of `relativeSubpath`; nothing where the fuel is used up. -/
def subpath (anc : List UInt8) : Nat → List UInt8 → Option (Option (List UInt8))
  | 0, _ => none
  | fuel + 1, dec =>
    if isRoot dec then some (if isRoot anc then some [] else none)
    else if anc = dec then some (some [])
    else
      (subpath anc fuel (dirname dec)).map fun result => result.map fun sub =>
        if sub = [] then basename dec else sub ++ pathSeparatorUTF8 :: basename dec

/-- Return the subpath of the receiver relative to the given path. -/
def relativeSubpath (self path : List UInt8) : Option (Option (List UInt8)) :=
  if ¬ (isAbsolute self ∧ isAbsolute path) then some none
  else if self = path then some (some [])
  else subpath (normalize path) fuel (normalize self)

/-- A turn of the loop of `ancestors`, on the path and the set. -/
def ancestorsTurn (s : List UInt8 × Finset (List UInt8)) :
    Finset (List UInt8) ⊕ List UInt8 × Finset (List UInt8) :=
  let path := dirname s.1
  let ancestors := insert path s.2
  if isRoot path then .inl ancestors else .inr (path, ancestors)

def addAncestors (ancestors : Finset (List UInt8)) (path : List UInt8) :
    Option (Finset (List UInt8)) :=
  if path = [] ∨ isRoot path then some ancestors else Loop.run ancestorsTurn fuel (path, ancestors)

variable (paths : List (List UInt8))

def ancestors : Option (Finset (List UInt8)) :=
  paths.foldlM (addAncestors fuel) ∅

/-! ## Ancestors -/

/-- Components are taken after normalization. -/
structure ProperAncestor (a p : List UInt8) : Prop where
  isAbsolute_left : isAbsolute a = true
  isAbsolute_right : isAbsolute p = true
  isPrefix : resolved a <+: resolved p
  ne : resolved a ≠ resolved p

/-- The set holds the proper ancestors of the paths, each in some spelling. -/
structure AreAncestors (ancestors : Finset (List UInt8)) (paths : List (List UInt8)) : Prop where
  sound : ∀ a ∈ ancestors, ∃ p ∈ paths, ProperAncestor a p
  complete : ∀ p ∈ paths, ∀ a, ProperAncestor a p → ∃ b ∈ ancestors, normalize b = normalize a

/-- The path of a directory on the way from the path up to the root. -/
def Above (d p : List UInt8) : Prop :=
  d = [pathSeparatorUTF8] ∨ d ≠ [] ∧ ∃ c, p = d ++ pathSeparatorUTF8 :: c

/-- Every path is empty or absolute, and every directory on the way up is a proper ancestor of a path. -/
def ClimbsCleanly : Prop :=
  ∀ p ∈ paths, p = [] ∨ p = [pathSeparatorUTF8] ∨
    isAbsolute p = true ∧ ∀ d, Above d p → ∃ q ∈ paths, ProperAncestor d q

/-! ## From a normalized path -/

section Normalized

variable {p q : List (List UInt8)} {c : List UInt8}

theorem Resolved.isComponents (h : Resolved true q) : ∀ d ∈ q, IsComponent d := fun d hd => (h.isComponent d hd).1

theorem render_eq_root_iff (h : Resolved true q) : render true q = [pathSeparatorUTF8] ↔ q = [] := by
  constructor
  · intro heq
    exact render_inj h.isComponents (by simp) heq
  · rintro rfl
    rfl

theorem isRoot_render (h : Resolved true q) : isRoot (render true q) = decide (q = []) :=
  decide_eq_decide.mpr (render_eq_root_iff h)

theorem dirname_render_concat (h : Resolved true (q ++ [c])) : dirname (render true (q ++ [c])) = render true q :=
  dirname_render_true q (h.isComponent c (by simp)).1.notMem

variable {str : List UInt8}

section

variable (habs : isAbsolute str = true)
include habs

theorem normalize_absolute :
    normalize str = render true (resolved str) := by
  have hdot : str ≠ dot := by
    rintro rfl
    exact absurd habs (by decide)
  rw [normalize_eq_normalForm hdot, normalForm_eq, habs]

theorem resolved_absolute : Resolved true (resolved str) :=
  habs ▸ resolved_resolved str

theorem resolved_normalize : resolved (normalize str) = resolved str := by
  have hres := resolved_absolute habs
  rw [normalize_absolute habs]
  unfold resolved at hres ⊢
  rw [isAbsolute_render_true, resolve_splitOn_render hres.isComponents, hres.resolve]

theorem isAbsolute_normalize : isAbsolute (normalize str) = true := by
  rw [normalize_absolute habs]
  exact isAbsolute_render_true _

end

theorem ne_concat_of_prefix (h : p <+: q) : p ≠ q ++ [c] := by
  rintro rfl
  have hlen := h.length_le
  rw [length_append, length_singleton] at hlen
  omega

theorem ends_isAncestorTurn (hp : Resolved true p) (hq : Resolved true q) :
    ∃ b, Loop.Ends (isAncestorTurn (render true p)) (render true q) b ∧ (b = true ↔ p <+: q ∧ p ≠ q) := by
  induction q using List.reverseRecOn with
  | nil =>
    have hturn : isAncestorTurn (render true p) (render true []) = .inl false := if_pos (by decide)
    refine ⟨false, (Loop.ends_of_inl hturn).mpr rfl, iff_of_false Bool.false_ne_true ?_⟩
    rintro ⟨hpre, hne⟩
    exact hne (prefix_nil.mp hpre)
  | append_singleton q c ih =>
    have hroot : ¬ isRoot (render true (q ++ [c])) = true := by
      rw [isRoot_render hq]
      simp
    have hinit : Resolved true q := hq.of_append
    by_cases heq : p = q
    · have hturn : isAncestorTurn (render true p) (render true (q ++ [c])) = .inl true := by
        unfold isAncestorTurn
        rw [if_neg hroot, dirname_render_concat hq, if_pos (by rw [heq])]
      refine ⟨true, (Loop.ends_of_inl hturn).mpr rfl, iff_of_true rfl ?_⟩
      rw [heq]
      exact ⟨prefix_append q [c], ne_concat_of_prefix (prefix_refl q)⟩
    · have hturn : isAncestorTurn (render true p) (render true (q ++ [c])) = .inr (render true q) := by
        unfold isAncestorTurn
        rw [if_neg hroot, dirname_render_concat hq,
          if_neg (fun h => heq (render_inj hp.isComponents hinit.isComponents h))]
      obtain ⟨b, hends, hb⟩ := ih hinit
      refine ⟨b, (Loop.ends_of_inr hturn).mpr hends, hb.trans ?_⟩
      constructor
      · rintro ⟨hpre, -⟩
        exact ⟨hpre.trans (prefix_append q [c]), ne_concat_of_prefix hpre⟩
      · rintro ⟨hpre, hne⟩
        exact ⟨(prefix_concat_iff.mp hpre).resolve_left hne, heq⟩

/-- The rest of the components, or nothing where there is another directory on the way. -/
theorem subpath_render (hp : Resolved true p) (hq : Resolved true q) {fuel : Nat} (hfuel : q.length < fuel) :
    ∃ result, subpath (render true p) fuel (render true q) = some result ∧ (result.isSome = true ↔ p <+: q) ∧
      ∀ sub, result = some sub → ∃ rest, q = p ++ rest ∧ sub = [pathSeparatorUTF8].intercalate rest := by
  induction q using List.reverseRecOn generalizing fuel with
  | nil =>
    obtain ⟨fuel, rfl⟩ : ∃ k, fuel = k + 1 := ⟨fuel - 1, by omega⟩
    have hcall : subpath (render true p) (fuel + 1) (render true []) = some (if isRoot (render true p) then some [] else none) :=
      if_pos (by decide)
    refine ⟨_, hcall, ?_, ?_⟩
    · rw [isRoot_render hp, prefix_nil]
      by_cases hnil : p = []
      · simp [hnil]
      · simp [hnil]
    · intro sub hsub
      rw [isRoot_render hp] at hsub
      by_cases hnil : p = []
      · refine ⟨[], by rw [hnil]; rfl, ?_⟩
        simpa [hnil] using hsub.symm
      · simp [hnil] at hsub
  | append_singleton q c ih =>
    obtain ⟨fuel, rfl⟩ : ∃ k, fuel = k + 1 := ⟨fuel - 1, by omega⟩
    have hroot : ¬ isRoot (render true (q ++ [c])) = true := by
      rw [isRoot_render hq]
      simp
    have hinit : Resolved true q := hq.of_append
    have hc : IsComponent c := (hq.isComponent c (by simp)).1
    unfold subpath
    rw [if_neg hroot]
    by_cases heq : p = q ++ [c]
    · rw [if_pos (by rw [heq])]
      refine ⟨some [], rfl, iff_of_true rfl (by rw [heq]), ?_⟩
      intro sub hsub
      exact ⟨[], by rw [heq, append_nil], (Option.some.inj hsub).symm⟩
    · rw [if_neg (fun h => heq (render_inj hp.isComponents hq.isComponents h)), dirname_render_concat hq]
      have hlen : q.length < fuel := by
        rw [length_append, length_singleton] at hfuel
        omega
      obtain ⟨result, hcall, hsome, hrest⟩ := ih hinit hlen
      rw [hcall]
      refine ⟨_, rfl, ?_, ?_⟩
      · rw [Option.isSome_map, hsome]
        constructor
        · exact fun hpre => hpre.trans (prefix_append q [c])
        · exact fun hpre => (prefix_concat_iff.mp hpre).resolve_left heq
      · intro sub hsub
        obtain ⟨sub', hsub', rfl⟩ := Option.map_eq_some_iff.mp hsub
        obtain ⟨rest, rfl, rfl⟩ := hrest sub' hsub'
        refine ⟨rest ++ [c], append_assoc _ _ _, ?_⟩
        rw [basename_render _ hc.notMem]
        have hcomp : ∀ d ∈ rest, IsComponent d := fun d hd => hinit.isComponents d (mem_append_right _ hd)
        have hempty : [pathSeparatorUTF8].intercalate rest = [] ↔ rest = [] := by
          have h := @render_eq_nil_iff false _ hcomp
          rwa [and_iff_right rfl] at h
        by_cases hnil : rest = []
        · rw [if_pos (hempty.mpr hnil), hnil]
          simp
        · rw [if_neg (fun h => hnil (hempty.mp h)), Separated.intercalate_append_singleton hnil]

end Normalized

/-! ## The way up -/

section Climb

variable {p d x c : List UInt8} {paths : List (List UInt8)}

section

variable (hrel : isAbsolute p = false)
include hrel

theorem isAbsolute_dirname : isAbsolute (dirname p) = false := by
  rcases separator_cases p with hsep | ⟨x, c, rfl, hc⟩
  · rw [dirname_of_notMem hsep]
    rfl
  · cases x with
    | nil => exact absurd hrel (by simp [isAbsolute])
    | cons b x =>
      rw [dirname_append (cons_ne_nil b x) hc]
      simpa [isAbsolute] using hrel

theorem not_isRoot_of_relative : ¬ isRoot p = true := by
  intro hroot
  obtain rfl := of_decide_eq_true hroot
  exact absurd hrel (by decide)

/-- A relative path never comes to the root. -/
theorem not_ends_relative (s result : Finset (List UInt8)) :
    ¬ Loop.Ends ancestorsTurn (p, s) result := by
  refine Loop.not_ends (I := fun s => isAbsolute s.1 = false) ?_ hrel
  rintro ⟨path, set⟩ hpath
  exact ⟨_, if_neg (not_isRoot_of_relative (isAbsolute_dirname hpath)), isAbsolute_dirname hpath⟩

end

/-- The directories of `x/c` are `x` and those of `x`. -/
theorem above_append_iff (hx : x ≠ []) (hc : pathSeparatorUTF8 ∉ c) :
    Above d (x ++ pathSeparatorUTF8 :: c) ↔ d = x ∨ Above d x := by
  constructor
  · rintro (rfl | ⟨hne, c', heq⟩)
    · exact .inr (.inl rfl)
    · rcases append_eq_append_iff.mp heq with ⟨l, rfl, hl⟩ | ⟨l, rfl, hl⟩
      · -- the separator behind `d` stands in `c`, or is the one behind `x`
        cases l with
        | nil => exact .inl (append_nil x)
        | cons b l =>
          obtain ⟨-, rfl⟩ := List.cons.inj hl
          exact absurd (by simp) hc
      · cases l with
        | nil => exact .inl (append_nil d).symm
        | cons b l =>
          obtain ⟨rfl, -⟩ := List.cons.inj hl
          exact .inr (.inr ⟨hne, l, rfl⟩)
  · rintro (rfl | rfl | ⟨hne, c', rfl⟩)
    · exact .inr ⟨hx, c, rfl⟩
    · exact .inl rfl
    · exact .inr ⟨hne, c' ++ pathSeparatorUTF8 :: c, by simp⟩

theorem above_root_append_iff (hc : pathSeparatorUTF8 ∉ c) :
    Above d (pathSeparatorUTF8 :: c) ↔ d = [pathSeparatorUTF8] := by
  constructor
  · rintro (rfl | ⟨hne, c', heq⟩)
    · rfl
    · obtain ⟨b, d, rfl⟩ := exists_cons_of_ne_nil hne
      obtain ⟨-, rfl⟩ := List.cons.inj heq
      exact absurd (by simp) hc
  · rintro rfl
    exact .inl rfl

theorem above_root_iff : Above d [pathSeparatorUTF8] ↔ d = [pathSeparatorUTF8] :=
  above_root_append_iff not_mem_nil

theorem isAbsolute_of_above (habs : isAbsolute p = true) (h : Above d p) : isAbsolute d = true := by
  rcases h with rfl | ⟨hne, c, rfl⟩
  · decide
  · obtain ⟨b, d, rfl⟩ := exists_cons_of_ne_nil hne
    simpa [isAbsolute] using habs

/-- The loop adds the directories on the way up. -/
theorem ends_ancestorsTurn (habs : isAbsolute p = true) (s : Finset (List UInt8)) :
    ∃ result, Loop.Ends ancestorsTurn (p, s) result ∧ ∀ d, d ∈ result ↔ d ∈ s ∨ Above d p := by
  induction hn : p.length using Nat.strongRecOn generalizing p s with
  | _ n ih =>
    obtain ⟨x, c, rfl, hc, hx⟩ := absolute_cases habs
    by_cases hroot : x = [] ∨ x = [pathSeparatorUTF8]
    · have hdir : dirname (x ++ pathSeparatorUTF8 :: c) = [pathSeparatorUTF8] := by
        rcases hroot with rfl | rfl
        · exact dirname_root_append hc
        · exact dirname_append (cons_ne_nil _ _) hc
      have hturn : ancestorsTurn (x ++ pathSeparatorUTF8 :: c, s) = .inl (insert [pathSeparatorUTF8] s) := by
        unfold ancestorsTurn
        dsimp only
        rw [hdir]
        exact if_pos (by decide)
      refine ⟨_, (Loop.ends_of_inl hturn).mpr rfl, ?_⟩
      intro d
      have habove : Above d (x ++ pathSeparatorUTF8 :: c) ↔ d = [pathSeparatorUTF8] := by
        rcases hroot with rfl | rfl
        · exact above_root_append_iff hc
        · rw [above_append_iff (cons_ne_nil _ _) hc, above_root_iff, or_self]
      rw [habove, Finset.mem_insert, or_comm]
    · obtain ⟨hne, hroot⟩ := not_or.mp hroot
      have hturn : ancestorsTurn (x ++ pathSeparatorUTF8 :: c, s) = .inr (x, insert x s) := by
        unfold ancestorsTurn
        dsimp only
        rw [dirname_append hne hc]
        exact if_neg (fun h => hroot (of_decide_eq_true h))
      have hlen : x.length < n := by
        rw [← hn, length_append, length_cons]
        omega
      obtain ⟨result, hends, hmem⟩ := ih x.length hlen (hx.resolve_left hne) (insert x s) rfl
      refine ⟨result, (Loop.ends_of_inr hturn).mpr hends, ?_⟩
      intro d
      rw [hmem, Finset.mem_insert, above_append_iff hne hc]
      tauto

theorem resolved_append (habs : isAbsolute x = true) (hc : pathSeparatorUTF8 ∉ c) :
    resolved (x ++ pathSeparatorUTF8 :: c) = resolveComponent true (resolved x) c := by
  have habs' : isAbsolute (x ++ pathSeparatorUTF8 :: c) = true := by
    cases x with
    | nil => exact absurd habs (by decide)
    | cons b x => simpa [isAbsolute] using habs
  unfold resolved resolve
  rw [habs, habs', splitOn_append_cons_self, splitOn_eq_singleton hc, foldl_append]
  rfl

/-- On the way up, every shorter list of components is met. -/
theorem exists_above_resolved (habs : isAbsolute p = true) {components : List (List UInt8)}
    (hpre : components <+: resolved p) (hne : components ≠ resolved p) :
    ∃ d, Above d p ∧ resolved d = components := by
  induction hn : p.length using Nat.strongRecOn generalizing p with
  | _ n ih =>
    obtain ⟨x, c, rfl, hc, hx⟩ := absolute_cases habs
    rcases hx with rfl | hx
    · -- one component at most
      have hresolved : resolved (pathSeparatorUTF8 :: c) = resolveComponent true [] c := by
        unfold resolved resolve
        rw [show isAbsolute (pathSeparatorUTF8 :: c) = true from habs, splitOn_cons_eq_if_modifyHead,
          if_pos (beq_self_eq_true _), splitOn_eq_singleton hc]
        rfl
      rw [nil_append, hresolved] at hpre hne
      refine ⟨[pathSeparatorUTF8], .inl rfl, ?_⟩
      have hroot : resolved [pathSeparatorUTF8] = [] := by decide
      rw [hroot]
      rcases resolveComponent_cases true [] c with heq | heq | ⟨heq, -⟩
      · rw [heq] at hpre
        exact (prefix_nil.mp hpre).symm
      · rw [heq] at hpre
        exact (prefix_nil.mp hpre).symm
      · rw [heq] at hpre hne
        rcases prefix_concat_iff.mp hpre with h | h
        · exact absurd h hne
        · exact (prefix_nil.mp h).symm
    · have hne' : x ≠ [] := by
        rintro rfl
        exact absurd hx (by decide)
      have hlen : x.length < n := by
        rw [← hn, length_append, length_cons]
        omega
      have hbefore : components <+: resolved x := by
        rw [resolved_append hx hc] at hpre hne
        rcases resolveComponent_cases true (resolved x) c with heq | heq | ⟨heq, -⟩
        · exact heq ▸ hpre
        · rw [heq] at hpre
          exact hpre.trans (List.dropLast_prefix _)
        · rw [heq] at hpre hne
          exact (prefix_concat_iff.mp hpre).resolve_left hne
      by_cases heq : components = resolved x
      · exact ⟨x, (above_append_iff hne' hc).mpr (.inl rfl), heq.symm⟩
      · obtain ⟨d, habove, hd⟩ := ih x.length hlen hx hbefore heq rfl
        exact ⟨d, (above_append_iff hne' hc).mpr (.inr habove), hd⟩

end Climb

/-! ## The listed paths -/

section Listed

variable {p : List UInt8} {paths : List (List UInt8)} {s result : Finset (List UInt8)} {fuel fuel' : Nat}

/-- The path is skipped. -/
def Skipped (p : List UInt8) : Prop := p = [] ∨ p = [pathSeparatorUTF8]

theorem addAncestors_of_skipped (h : Skipped p) (fuel : Nat) : addAncestors fuel s p = some s :=
  if_pos (h.imp_right decide_eq_true)

theorem addAncestors_of_not_skipped (h : ¬ Skipped p) (fuel : Nat) :
    addAncestors fuel s p = Loop.run ancestorsTurn fuel (p, s) :=
  if_neg (fun hs => h (hs.imp_right of_decide_eq_true))

theorem addAncestors_mono (hle : fuel ≤ fuel') (h : addAncestors fuel s p = some result) :
    addAncestors fuel' s p = some result := by
  by_cases hskip : Skipped p
  · rw [addAncestors_of_skipped hskip] at h ⊢
    exact h
  · rw [addAncestors_of_not_skipped hskip] at h ⊢
    exact Loop.run_mono hle h

theorem foldlM_mono (hle : fuel ≤ fuel') (h : paths.foldlM (addAncestors fuel) s = some result) :
    paths.foldlM (addAncestors fuel') s = some result := by
  induction paths generalizing s with
  | nil => exact h
  | cons p paths ih =>
    rw [foldlM_cons] at h ⊢
    obtain ⟨s', hs', hrest⟩ := Option.bind_eq_some_iff.mp h
    exact Option.bind_eq_some_iff.mpr ⟨s', addAncestors_mono hle hs', ih hrest⟩

/-- With a relative path in the list, no number of turns is enough. -/
theorem foldlM_eq_none (hp : p ∈ paths) (hne : p ≠ []) (hrel : isAbsolute p = false) :
    paths.foldlM (addAncestors fuel) s ≠ some result := by
  have hskip : ¬ Skipped p := by
    rintro (rfl | rfl)
    · exact hne rfl
    · exact absurd hrel (by decide)
  intro h
  induction paths generalizing s with
  | nil => exact absurd hp not_mem_nil
  | cons q paths ih =>
    rw [foldlM_cons] at h
    obtain ⟨s', hs', hrest⟩ := Option.bind_eq_some_iff.mp h
    rcases mem_cons.mp hp with rfl | hp
    · rw [addAncestors_of_not_skipped hskip] at hs'
      exact not_ends_relative hrel s s' ⟨fuel, hs'⟩
    · exact ih hp hrest

/-- Otherwise the loop ends, and has met the directories on the way up from the paths. -/
theorem foldlM_eq_some (h : ∀ p ∈ paths, p = [] ∨ isAbsolute p = true) (s : Finset (List UInt8)) :
    ∃ fuel result, paths.foldlM (addAncestors fuel) s = some result ∧
      ∀ d, d ∈ result ↔ d ∈ s ∨ ∃ p ∈ paths, ¬ Skipped p ∧ Above d p := by
  induction paths generalizing s with
  | nil => exact ⟨0, s, rfl, by simp⟩
  | cons p paths ih =>
    have hstep : ∃ fuel s', addAncestors fuel s p = some s' ∧ ∀ d, d ∈ s' ↔ d ∈ s ∨ ¬ Skipped p ∧ Above d p := by
      by_cases hskip : Skipped p
      · exact ⟨0, s, addAncestors_of_skipped hskip 0, by simp [hskip]⟩
      · have habs := (h p mem_cons_self).resolve_left (fun hnil => hskip (.inl hnil))
        obtain ⟨s', ⟨fuel, hrun⟩, hmem⟩ := ends_ancestorsTurn habs s
        refine ⟨fuel, s', (addAncestors_of_not_skipped hskip fuel).trans hrun, ?_⟩
        intro d
        rw [hmem, and_iff_right hskip]
    obtain ⟨fuel, s', hs', hmem'⟩ := hstep
    obtain ⟨fuel', result, hrest, hmem⟩ := ih (fun q hq => h q (mem_cons_of_mem _ hq)) s'
    refine ⟨max fuel fuel', result, ?_, ?_⟩
    · rw [foldlM_cons]
      exact Option.bind_eq_some_iff.mpr
        ⟨s', addAncestors_mono (Nat.le_max_left _ _) hs', foldlM_mono (Nat.le_max_right _ _) hrest⟩
    · intro d
      rw [hmem, hmem', exists_mem_cons_iff, or_assoc]

theorem resolved_root : resolved [pathSeparatorUTF8] = [] := by decide

/-- `ancestors` ends with the proper ancestors of the paths exactly where every path climbs cleanly. -/
theorem ancestors_iff (paths : List (List UInt8)) :
    (∃ fuel result, ancestors fuel paths = some result ∧ AreAncestors result paths) ↔ ClimbsCleanly paths := by
  constructor
  · rintro ⟨fuel, result, hrun, hexact⟩ p hp
    by_cases hnil : p = []
    · exact .inl hnil
    · have hall : ∀ q ∈ paths, q = [] ∨ isAbsolute q = true := by
        intro q hq
        by_contra hnot
        obtain ⟨hne, hrel⟩ := not_or.mp hnot
        exact foldlM_eq_none hq hne (Bool.eq_false_of_not_eq_true hrel) hrun
      refine .inr ?_
      by_cases hroot : p = [pathSeparatorUTF8]
      · exact .inl hroot
      · refine .inr ⟨(hall p hp).resolve_left hnil, ?_⟩
        intro d habove
        obtain ⟨fuel', result', hrun', hmem⟩ := foldlM_eq_some hall ∅
        have hsame : result = result' := by
          have hmax := foldlM_mono (Nat.le_max_left fuel fuel') hrun
          have hmax' := foldlM_mono (Nat.le_max_right fuel fuel') hrun'
          exact Option.some.inj (hmax.symm.trans hmax')
        refine hexact.sound d ?_
        rw [hsame, hmem]
        exact .inr ⟨p, hp, not_or_intro hnil hroot, habove⟩
  · intro hclean
    have hall : ∀ p ∈ paths, p = [] ∨ isAbsolute p = true := by
      intro p hp
      rcases hclean p hp with rfl | rfl | ⟨habs, -⟩
      · exact .inl rfl
      · exact .inr (by decide)
      · exact .inr habs
    obtain ⟨fuel, result, hrun, hmem⟩ := foldlM_eq_some hall ∅
    refine ⟨fuel, result, hrun, ?_, ?_⟩
    · intro a ha
      rw [hmem] at ha
      obtain ⟨p, hp, hskip, habove⟩ := ha.resolve_left (Finset.notMem_empty a)
      rcases hclean p hp with hnil | hroot | ⟨-, hcovered⟩
      · exact absurd (.inl hnil) hskip
      · exact absurd (.inr hroot) hskip
      · exact hcovered a habove
    · intro p hp a hanc
      obtain ⟨d, habove, hd⟩ := exists_above_resolved hanc.isAbsolute_right hanc.isPrefix hanc.ne
      have hskip : ¬ Skipped p := by
        rintro (rfl | rfl)
        · exact absurd hanc.isAbsolute_right (by decide)
        · have hpre := hanc.isPrefix
          rw [resolved_root] at hpre
          exact hanc.ne ((prefix_nil.mp hpre).trans resolved_root.symm)
      refine ⟨d, (hmem d).mpr (.inr ⟨p, hp, hskip, habove⟩), ?_⟩
      rw [normalize_absolute (isAbsolute_of_above hanc.isAbsolute_right habove), hd,
        normalize_absolute hanc.isAbsolute_left]

end Listed

/-! ## The tests -/

variable {p q : List UInt8}

section

variable (hp : isAbsolute p = true)
include hp

section

variable (hq : isAbsolute q = true)
include hq

theorem isAncestor_ends :
    ∃ fuel b, isAncestor fuel p q = some b ∧ (b = true ↔ resolved p <+: resolved q ∧ resolved p ≠ resolved q) := by
  obtain ⟨b, ⟨fuel, hrun⟩, hb⟩ := ends_isAncestorTurn (resolved_absolute hp) (resolved_absolute hq)
  refine ⟨fuel, b, ?_, hb⟩
  unfold isAncestor
  rw [if_neg (not_not_intro ⟨hp, hq⟩), normalize_absolute hp, normalize_absolute hq]
  exact hrun

theorem normalize_eq_iff :
    normalize p = normalize q ↔ resolved p = resolved q := by
  rw [normalize_absolute hp, normalize_absolute hq]
  exact ⟨render_inj (resolved_absolute hp).isComponents (resolved_absolute hq).isComponents, congrArg (render true)⟩

theorem isAncestorOrEqual_ends :
    ∃ fuel b, isAncestorOrEqual fuel p q = some b ∧ (b = true ↔ resolved p <+: resolved q) := by
  by_cases heq : normalize p = normalize q
  · refine ⟨0, true, ?_, iff_of_true rfl ?_⟩
    · unfold isAncestorOrEqual
      rw [if_neg (not_not_intro ⟨hp, hq⟩), if_pos heq]
    · rw [(normalize_eq_iff hp hq).mp heq]
  · obtain ⟨fuel, b, hrun, hb⟩ := isAncestor_ends (isAbsolute_normalize hp) (isAbsolute_normalize hq)
    refine ⟨fuel, b, ?_, ?_⟩
    · unfold isAncestorOrEqual
      rw [if_neg (not_not_intro ⟨hp, hq⟩), if_neg heq, hrun]
    · rw [hb, resolved_normalize hp, resolved_normalize hq]
      exact and_iff_left (fun h => heq ((normalize_eq_iff hp hq).mpr h))

theorem relativeSubpath_ends :
    ∃ fuel result, relativeSubpath fuel q p = some result ∧ (result.isSome = true ↔ resolved p <+: resolved q) ∧
      ∀ sub, result = some sub →
        ∃ rest, resolved q = resolved p ++ rest ∧ sub = [pathSeparatorUTF8].intercalate rest := by
  by_cases heq : q = p
  · refine ⟨0, some [], ?_, iff_of_true rfl (by rw [heq]), ?_⟩
    · unfold relativeSubpath
      rw [if_neg (not_not_intro ⟨hq, hp⟩), if_pos heq]
    · intro sub hsub
      exact ⟨[], by rw [heq, append_nil], (Option.some.inj hsub).symm⟩
  · obtain ⟨result, hcall, hsome, hrest⟩ := subpath_render (resolved_absolute hp) (resolved_absolute hq)
      (Nat.lt_succ_self (resolved q).length)
    refine ⟨(resolved q).length + 1, result, ?_, hsome, hrest⟩
    unfold relativeSubpath
    rw [if_neg (not_not_intro ⟨hq, hp⟩), if_neg heq, normalize_absolute hp, normalize_absolute hq]
    exact hcall

end

end

end Builra.Path
