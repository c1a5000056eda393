import Builra.Util.PathComponents
import Builra.Lib.Loop

namespace Builra.Path

open List Bool

/-!
# `Util.PathSuffix` — whether a path ends with another one

`ends(with:)` splits both paths again and again and compares their last components. It stops where the rest of one path
is empty. The root is split into itself and an empty component, so that the loop does not stop where both paths come to
the root together.
-/

/-! ## The source -/

/-- A turn of the loop of `ends(with:)`, on what is left of the two paths. -/
def endsTurn (s : List UInt8 × List UInt8) : Bool ⊕ List UInt8 × List UInt8 :=
  if s.1 = [] then .inl (decide (s.2 = []))
  else
    let (newBase, last) := split s.1
    let (newPathBase, pathLast) := split s.2
    if last ≠ pathLast then .inl false
    -- the beginning of the path is reached, so everything matched
    else if newPathBase = [] then .inl true
    else .inr (newBase, newPathBase)

/-- Remove a trailing slash. -/
def withoutSlash (str : List UInt8) : List UInt8 :=
  if str.getLast? = some pathSeparatorUTF8 then str.dropLast else str

/-- Returns true if the receiver's last N path components match the path components of `path`. -/
def endsWith (fuel : Nat) (self path : List UInt8) : Option Bool :=
  if self = [] then some (decide (path = []))
  else if path = [] then some true
  else if self = [pathSeparatorUTF8] ∨ path = [pathSeparatorUTF8] then some (decide (self = path))
  else if isAbsolute path ∧ ¬ isAbsolute self then some false
  else Loop.run endsTurn fuel (withoutSlash self, withoutSlash path)

/-! ## The purpose -/

/-- The components of `q` are the last ones of `p`, and all of them where `q` is absolute. -/
def IsEndOf (q p : List UInt8) : Prop :=
  (withoutSlash q).splitOn pathSeparatorUTF8 <:+ (withoutSlash p).splitOn pathSeparatorUTF8 ∧
    (isAbsolute q = true → isAbsolute p = true ∧
      (withoutSlash q).splitOn pathSeparatorUTF8 = (withoutSlash p).splitOn pathSeparatorUTF8)

/-- The path behind the slashes that it starts with. -/
def behindRoot (str : List UInt8) : List UInt8 := str.dropWhile (fun b => b = pathSeparatorUTF8)

/-- Both paths lead from the root to the same place, in the same components. -/
structure MeetAtRoot (p q : List UInt8) : Prop where
  isAbsolute_left : isAbsolute p = true
  isAbsolute_right : isAbsolute q = true
  ne_root_left : p ≠ [pathSeparatorUTF8]
  ne_root_right : q ≠ [pathSeparatorUTF8]
  behindRoot_eq : behindRoot (withoutSlash p) = behindRoot (withoutSlash q)

/-! ## A turn -/

section Turn

variable {x y z c d : List UInt8}

theorem endsTurn_nil (q : List UInt8) : endsTurn ([], q) = .inl (decide (q = [])) := if_pos rfl

variable {p q : List UInt8}

theorem endsTurn_eq (hp : p ≠ []) :
    endsTurn (p, q) =
      if (split p).2 ≠ (split q).2 then .inl false
      else if (split q).1 = [] then .inl true
      else .inr ((split p).1, (split q).1) :=
  if_neg hp

theorem suffix_concat_iff {α : Type} {l m : List α} {a b : α} : l ++ [a] <:+ m ++ [b] ↔ a = b ∧ l <:+ m := by
  rw [← reverse_prefix, ← @List.reverse_prefix _ l]
  simp

/-- The first component of a relative path is not empty. -/
theorem exists_mem_splitOn_ne_nil (hx : x ≠ []) (hrel : isAbsolute x = false) :
    ∃ d ∈ x.splitOn pathSeparatorUTF8, d ≠ [] := by
  obtain ⟨b, x, rfl⟩ := exists_cons_of_ne_nil hx
  have hb : ¬ (b == pathSeparatorUTF8) = true := by simpa [isAbsolute] using hrel
  rw [splitOn_cons_eq_if_modifyHead, if_neg hb]
  obtain ⟨d, l, hl⟩ := exists_cons_of_ne_nil (splitOn_ne_nil pathSeparatorUTF8 x)
  rw [hl]
  exact ⟨b :: d, mem_cons_self, cons_ne_nil _ _⟩

/-- A relative path is compared from the end. -/
theorem ends_relative (p : List UInt8) (hq : q ≠ []) (hrel : isAbsolute q = false) :
    ∃ b, Loop.Ends endsTurn (p, q) b ∧
      (b = true ↔ q.splitOn pathSeparatorUTF8 <:+ p.splitOn pathSeparatorUTF8) := by
  induction hn : q.length using Nat.strongRecOn generalizing p q with
  | _ n ih =>
    obtain ⟨d, hd, hdne⟩ := exists_mem_splitOn_ne_nil hq hrel
    by_cases hp : p = []
    · subst hp
      refine ⟨false, (Loop.ends_of_inl (endsTurn_nil q)).mpr (by simp [hq]), iff_of_false false_ne_true ?_⟩
      intro h
      exact hdne (mem_singleton.mp (h.subset hd))
    · have hturn := endsTurn_eq (q := q) hp
      rcases separator_cases q with hqsep | ⟨x, c', rfl, hc'⟩
      · -- the last component of `q`
        rw [split_of_notMem hqsep, if_pos rfl] at hturn
        have hlast : ∀ l : List (List UInt8), [q] <:+ l ++ [(split p).2] ↔ (split p).2 = q := by
          intro l
          rw [← nil_append [q], suffix_concat_iff, and_iff_left (nil_suffix ..), eq_comm]
        have hsplit : ∃ l, p.splitOn pathSeparatorUTF8 = l ++ [(split p).2] := by
          rcases separator_cases p with hpsep | ⟨y, c, rfl, hc⟩
          · exact ⟨[], by rw [splitOn_eq_singleton hpsep, split_of_notMem hpsep]; rfl⟩
          · refine ⟨y.splitOn pathSeparatorUTF8, ?_⟩
            rw [splitOn_append_cons_self, splitOn_eq_singleton hc, split_append y hc]
        obtain ⟨l, hl⟩ := hsplit
        rw [splitOn_eq_singleton hqsep, hl]
        by_cases heq : (split p).2 = q
        · rw [if_neg (not_not_intro heq)] at hturn
          exact ⟨true, (Loop.ends_of_inl hturn).mpr rfl, iff_of_true rfl ((hlast l).mpr heq)⟩
        · rw [if_pos heq] at hturn
          refine ⟨false, (Loop.ends_of_inl hturn).mpr rfl, iff_of_false false_ne_true ?_⟩
          exact fun h => heq ((hlast l).mp h)
      · have hx : x ≠ [] := by
          rintro rfl
          exact absurd hrel (by simp [isAbsolute])
        have hxrel : isAbsolute x = false := isAbsolute_append hx _ ▸ hrel
        have hlen : x.length < n := by
          rw [← hn, length_append, length_cons]
          omega
        obtain ⟨e, he, hene⟩ := exists_mem_splitOn_ne_nil hx hxrel
        rw [split_append x hc', if_neg hx, if_neg hx] at hturn
        rw [splitOn_append_cons_self, splitOn_eq_singleton hc']
        by_cases heq : (split p).2 = c'
        · rw [if_neg (not_not_intro heq)] at hturn
          obtain ⟨b, hends, hb⟩ := ih x.length hlen (split p).1 hx hxrel rfl
          refine ⟨b, (Loop.ends_of_inr hturn).mpr hends, hb.trans ?_⟩
          rcases separator_cases p with hpsep | ⟨y, c, rfl, hc⟩
          · -- nothing is left of `p`
            rw [split_of_notMem hpsep, splitOn_eq_singleton hpsep]
            refine iff_of_false ?_ ?_
            · intro h
              exact hene (mem_singleton.mp (h.subset he))
            · intro h
              rw [← nil_append [p], suffix_concat_iff, suffix_nil] at h
              exact splitOn_ne_nil _ _ h.2
          · rw [split_append y hc] at heq ⊢
            obtain rfl : c = c' := heq
            rw [splitOn_append_cons_self, splitOn_eq_singleton hc, suffix_concat_iff, and_iff_right rfl]
            by_cases hy : y = []
            · -- the root gives nothing but empty components
              subst hy
              refine iff_of_false ?_ ?_
              · intro h
                have hroot : ∀ e ∈ [pathSeparatorUTF8].splitOn pathSeparatorUTF8, e = [] := by decide
                exact hene (hroot e (h.subset he))
              · intro h
                exact hene (mem_singleton.mp (h.subset he))
            · rw [if_neg hy]
        · rw [if_pos heq] at hturn
          refine ⟨false, (Loop.ends_of_inl hturn).mpr rfl, iff_of_false false_ne_true ?_⟩
          intro h
          rcases separator_cases p with hpsep | ⟨y, c, rfl, hc⟩
          · rw [split_of_notMem hpsep] at heq
            rw [splitOn_eq_singleton hpsep, ← nil_append [p], suffix_concat_iff] at h
            exact heq h.1.symm
          · rw [split_append y hc] at heq
            rw [splitOn_append_cons_self, splitOn_eq_singleton hc, suffix_concat_iff] at h
            exact heq h.1.symm

/-! ## Two absolute paths -/

theorem behindRoot_of_notMem (hc : pathSeparatorUTF8 ∉ c) : behindRoot c = c := by
  unfold behindRoot
  cases c with
  | nil => rfl
  | cons b c =>
    refine dropWhile_cons_of_neg ?_
    rw [decide_eq_true_eq]
    rintro rfl
    exact hc mem_cons_self

theorem behindRoot_append (y : List UInt8) (hc : pathSeparatorUTF8 ∉ c) :
    behindRoot (y ++ pathSeparatorUTF8 :: c) =
      if behindRoot y = [] then c else behindRoot y ++ pathSeparatorUTF8 :: c := by
  induction y with
  | nil => exact behindRoot_of_notMem hc
  | cons b y ih =>
    by_cases hb : b = pathSeparatorUTF8
    · have hdrop : ∀ l, behindRoot (b :: l) = behindRoot l := fun l => dropWhile_cons_of_pos (by simpa using hb)
      rw [cons_append, hdrop, hdrop, ih]
    · have hkeep : ∀ l, behindRoot (b :: l) = b :: l := fun l => dropWhile_cons_of_neg (by simpa using hb)
      rw [cons_append, hkeep, hkeep, if_neg (cons_ne_nil b y)]
      rfl

/-- Two paths are the same behind the root if their last components are the same and so is what is in front of them. -/
theorem behindRoot_append_eq_iff (hc : pathSeparatorUTF8 ∉ c) (hd : pathSeparatorUTF8 ∉ d) :
    behindRoot (y ++ pathSeparatorUTF8 :: c) = behindRoot (z ++ pathSeparatorUTF8 :: d) ↔
      c = d ∧ behindRoot y = behindRoot z := by
  rw [behindRoot_append y hc, behindRoot_append z hd]
  generalize behindRoot y = u
  generalize behindRoot z = v
  by_cases hu : u = []
  · rw [if_pos hu]
    by_cases hv : v = []
    · rw [if_pos hv, hu, hv, and_iff_left rfl]
    · rw [if_neg hv]
      refine iff_of_false ?_ ?_
      · rintro rfl
        exact hc (by simp)
      · rintro ⟨-, heq⟩
        exact hv (heq.symm.trans hu)
  · rw [if_neg hu]
    by_cases hv : v = []
    · rw [if_pos hv]
      refine iff_of_false ?_ ?_
      · rintro rfl
        exact hd (by simp)
      · rintro ⟨-, heq⟩
        exact hu (heq.trans hv)
    · rw [if_neg hv]
      constructor
      · intro heq
        have hsplit := congrArg split heq
        rw [split_append u hc, split_append v hd, if_neg hu, if_neg hv] at hsplit
        obtain ⟨huv, hcd⟩ := Prod.mk.inj hsplit
        exact ⟨hcd, huv⟩
      · rintro ⟨rfl, rfl⟩
        rfl

/-- What an absolute path is split into is absolute, and the same behind the root as what stands in front of its last
component. -/
theorem split_absolute (hy : y = [] ∨ isAbsolute y = true) (hc : pathSeparatorUTF8 ∉ c) :
    (split (y ++ pathSeparatorUTF8 :: c)).2 = c ∧ isAbsolute (split (y ++ pathSeparatorUTF8 :: c)).1 = true ∧
      behindRoot (split (y ++ pathSeparatorUTF8 :: c)).1 = behindRoot y ∧
      ((split (y ++ pathSeparatorUTF8 :: c)).1.length < (y ++ pathSeparatorUTF8 :: c).length ∨
        y = [] ∧ c = []) := by
  rw [split_append y hc]
  by_cases hnil : y = []
  · subst hnil
    refine ⟨rfl, rfl, rfl, ?_⟩
    by_cases hempty : c = []
    · exact .inr ⟨rfl, hempty⟩
    · have hlen := length_pos_of_ne_nil hempty
      refine .inl ?_
      show 1 < c.length + 1
      omega
  · rw [if_neg hnil]
    refine ⟨rfl, hy.resolve_left hnil, rfl, .inl ?_⟩
    show y.length < (y ++ pathSeparatorUTF8 :: c).length
    rw [length_append, length_cons]
    omega

theorem ne_nil_of_isAbsolute (habs : isAbsolute x = true) : x ≠ [] := by
  rintro rfl
  exact absurd habs (by decide)

theorem endsTurn_absolute (hp : isAbsolute p = true) (hq : isAbsolute q = true) :
    endsTurn (p, q) = if (split p).2 ≠ (split q).2 then .inl false else .inr ((split p).1, (split q).1) := by
  obtain ⟨z, d, rfl, hd, hz⟩ := absolute_cases hq
  have habs := (split_absolute hz hd).2.1
  rw [endsTurn_eq (ne_nil_of_isAbsolute hp), if_neg (ne_nil_of_isAbsolute habs)]

/-- Paths that are the same behind the root come to the root together, and stay there. -/
theorem not_ends_absolute (hp : isAbsolute p = true) (hq : isAbsolute q = true) (heq : behindRoot p = behindRoot q)
    (b : Bool) : ¬ Loop.Ends endsTurn (p, q) b := by
  refine Loop.not_ends
    (I := fun s => isAbsolute s.1 = true ∧ isAbsolute s.2 = true ∧ behindRoot s.1 = behindRoot s.2) ?_ ⟨hp, hq, heq⟩
  rintro ⟨p, q⟩ ⟨hp, hq, heq⟩
  rw [endsTurn_absolute hp hq]
  obtain ⟨y, c, rfl, hc, hy⟩ := absolute_cases hp
  obtain ⟨z, d, rfl, hd, hz⟩ := absolute_cases hq
  obtain ⟨hcd, hyz⟩ := (behindRoot_append_eq_iff hc hd).mp heq
  obtain ⟨hlast, habs, hbehind, -⟩ := split_absolute hy hc
  obtain ⟨hlast', habs', hbehind', -⟩ := split_absolute hz hd
  refine ⟨_, if_neg (not_not_intro ?_), habs, habs', ?_⟩
  · rw [hlast, hlast', hcd]
  · rw [hbehind, hbehind', hyz]

/-- Other absolute paths differ in a component. -/
theorem ends_absolute (hp : isAbsolute p = true) (hq : isAbsolute q = true) (hne : behindRoot p ≠ behindRoot q) :
    Loop.Ends endsTurn (p, q) false := by
  induction hn : p.length + q.length using Nat.strongRecOn generalizing p q with
  | _ n ih =>
    have hturn := endsTurn_absolute hp hq
    obtain ⟨y, c, rfl, hc, hy⟩ := absolute_cases hp
    obtain ⟨z, d, rfl, hd, hz⟩ := absolute_cases hq
    obtain ⟨hlast, habs, hbehind, hlen⟩ := split_absolute hy hc
    obtain ⟨hlast', habs', hbehind', hlen'⟩ := split_absolute hz hd
    rw [Ne, behindRoot_append_eq_iff hc hd] at hne
    rw [hlast, hlast'] at hturn
    by_cases hcd : c = d
    · rw [if_neg (not_not_intro hcd)] at hturn
      refine (Loop.ends_of_inr hturn).mpr (ih _ ?_ habs habs' ?_ rfl)
      · -- only the root does not get shorter, and not both are the root
        have hle : (split (y ++ pathSeparatorUTF8 :: c)).1.length ≤ (y ++ pathSeparatorUTF8 :: c).length := by
          rcases hlen with hlt | ⟨rfl, rfl⟩
          · exact Nat.le_of_lt hlt
          · decide
        have hle' : (split (z ++ pathSeparatorUTF8 :: d)).1.length ≤ (z ++ pathSeparatorUTF8 :: d).length := by
          rcases hlen' with hlt | ⟨rfl, rfl⟩
          · exact Nat.le_of_lt hlt
          · decide
        rcases hlen with hlt | ⟨rfl, rfl⟩
        · omega
        · rcases hlen' with hlt | ⟨rfl, rfl⟩
          · omega
          · exact absurd ⟨rfl, rfl⟩ hne
      · rw [hbehind, hbehind']
        exact fun h => hne ⟨hcd, h⟩
    · rw [if_pos hcd] at hturn
      exact (Loop.ends_of_inl hturn).mpr rfl

end Turn

/-! ## The test -/

section Test

variable {p q str : List UInt8}

theorem withoutSlash_spec (hne : str ≠ []) (hroot : str ≠ [pathSeparatorUTF8]) :
    withoutSlash str ≠ [] ∧ isAbsolute (withoutSlash str) = isAbsolute str := by
  unfold withoutSlash
  by_cases hlast : str.getLast? = some pathSeparatorUTF8
  · rw [if_pos hlast]
    obtain ⟨init, rfl⟩ := List.getLast?_eq_some_iff.mp hlast
    rw [dropLast_concat]
    have hinit : init ≠ [] := by
      rintro rfl
      exact hroot rfl
    exact ⟨hinit, (isAbsolute_append hinit _).symm⟩
  · rw [if_neg hlast]
    exact ⟨hne, rfl⟩

/-- The test ends, and compares components, unless both paths come to the root together. -/
theorem endsWith_bytes (p q : List UInt8) :
    (∃ fuel b, endsWith fuel p q = some b ∧
      (p ≠ [] → q ≠ [] → p ≠ [pathSeparatorUTF8] → q ≠ [pathSeparatorUTF8] → (b = true ↔ IsEndOf q p))) ↔
      ¬ MeetAtRoot p q := by
  by_cases hp : p = []
  · subst hp
    refine iff_of_true ⟨0, _, if_pos rfl, fun h => absurd rfl h⟩ ?_
    exact fun h => absurd h.isAbsolute_left (by decide)
  · by_cases hq : q = []
    · subst hq
      refine iff_of_true ⟨0, true, ?_, fun _ h => absurd rfl h⟩ ?_
      · unfold endsWith
        rw [if_neg hp, if_pos rfl]
      · exact fun h => absurd h.isAbsolute_right (by decide)
    · by_cases hroot : p = [pathSeparatorUTF8] ∨ q = [pathSeparatorUTF8]
      · refine iff_of_true ⟨0, decide (p = q), ?_, ?_⟩ ?_
        · unfold endsWith
          rw [if_neg hp, if_neg hq, if_pos hroot]
        · intro _ _ hpr hqr
          exact absurd hroot (not_or_intro hpr hqr)
        · exact fun h => hroot.elim h.ne_root_left h.ne_root_right
      · obtain ⟨hpr, hqr⟩ := not_or.mp hroot
        obtain ⟨hpne, hpabs⟩ := withoutSlash_spec hp hpr
        obtain ⟨hqne, hqabs⟩ := withoutSlash_spec hq hqr
        have hcall : ∀ fuel, endsWith fuel p q =
            if isAbsolute q ∧ ¬ isAbsolute p then some false
            else Loop.run endsTurn fuel (withoutSlash p, withoutSlash q) := by
          intro fuel
          unfold endsWith
          rw [if_neg hp, if_neg hq, if_neg hroot]
        by_cases hqa : isAbsolute q = true
        · by_cases hpa : isAbsolute p = true
          · have hloop : ∀ fuel, endsWith fuel p q = Loop.run endsTurn fuel (withoutSlash p, withoutSlash q) :=
              fun fuel => (hcall fuel).trans (if_neg (fun h => h.2 hpa))
            by_cases hmeet : behindRoot (withoutSlash p) = behindRoot (withoutSlash q)
            · refine iff_of_false ?_ (not_not_intro ⟨hpa, hqa, hpr, hqr, hmeet⟩)
              rintro ⟨fuel, b, hrun, -⟩
              exact not_ends_absolute (hpabs.trans hpa) (hqabs.trans hqa) hmeet b ⟨fuel, (hloop fuel).symm.trans hrun⟩
            · obtain ⟨fuel, hrun⟩ := ends_absolute (hpabs.trans hpa) (hqabs.trans hqa) hmeet
              refine iff_of_true ⟨fuel, false, (hloop fuel).trans hrun, ?_⟩ (fun h => hmeet h.behindRoot_eq)
              intro _ _ _ _
              refine iff_of_false false_ne_true ?_
              rintro ⟨-, hsame⟩
              have hjoin := congrArg ([pathSeparatorUTF8].intercalate) (hsame hqa).2
              rw [intercalate_splitOn, intercalate_splitOn] at hjoin
              exact hmeet (congrArg behindRoot hjoin.symm)
          · refine iff_of_true ⟨0, false, (hcall 0).trans (if_pos ⟨hqa, hpa⟩), ?_⟩ (fun h => hpa h.isAbsolute_left)
            intro _ _ _ _
            exact iff_of_false false_ne_true (fun h => hpa (h.2 hqa).1)
        · have hqrel : isAbsolute (withoutSlash q) = false := hqabs.trans ((not_eq_true _).mp hqa)
          obtain ⟨b, ⟨fuel, hrun⟩, hb⟩ := ends_relative (withoutSlash p) hqne hqrel
          refine iff_of_true ⟨fuel, b, ((hcall fuel).trans (if_neg (fun h => hqa h.1))).trans hrun, ?_⟩
            (fun h => hqa h.isAbsolute_right)
          intro _ _ _ _
          exact hb.trans (and_iff_left (fun h => absurd h hqa)).symm

end Test

end Builra.Path
