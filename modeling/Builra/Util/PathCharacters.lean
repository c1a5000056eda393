import Builra.Util.PathAncestors
import Builra.Util.PathJoin
import Builra.Util.PathSuffix

namespace Builra.Path

open List

/-!
# `Util.PathCharacters` — paths as strings

A path is a string. The source looks for a separator in the bytes at some places and among the Characters at others, and
compares strings by their canonical forms. The operations are given here once more with what they take from the standard
library (`Unicode`); they are those on bytes where every separator is a Character of its own and a path has one spelling
(`Plain`).
-/

/-- Strings, as bytes: the Characters of a string, and the strings that are the same. -/
structure Unicode where
  characters : List UInt8 → List (List UInt8)
  same : List UInt8 → List UInt8 → Bool
  same_self : ∀ str, same str str = true

namespace Unicode

variable (u : Unicode)

/-! ## The source -/

variable (str : List UInt8)

/-- `hasSuffix` of one character. -/
def endsIn (c : UInt8) : Bool := (u.characters str).getLast?.any (fun d => u.same d [c])

def dropLast : List UInt8 := (u.characters str).dropLast.flatten

def split : List UInt8 × List UInt8 :=
  match lastIndex str pathSeparatorUTF8 with
  | some idx =>
    -- `str[...idx]` ends with the Character that begins at `idx`, where the other slices end and begin at bytes
    if idx = 0 then ((u.characters str).headD [], str.drop (idx + 1)) else (str.take idx, str.drop (idx + 1))
  | none => ([], str)

def dirname : List UInt8 := (u.split str).1

def isRoot : Bool := u.same str [pathSeparatorUTF8]

def join (str rhs : List UInt8) : List UInt8 :=
  if str = [] ∨ isAbsolute rhs then rhs
  else if rhs = [] then str
  else if u.endsIn str pathSeparatorUTF8 then str ++ rhs
  else str ++ pathSeparatorUTF8 :: rhs

/-- What is between the Characters that are separators. -/
def components (characters : List (List UInt8)) : List (List UInt8) :=
  (characters.splitOnP (fun c => u.same c [pathSeparatorUTF8])).map flatten

def enumerateSplits : List (List UInt8) :=
  (u.components (u.characters str)).filter (fun c => c ≠ [])

def allComponents : List (List UInt8) :=
  u.components (if isAbsolute str then (u.characters str).drop 1 else u.characters str)

def isNormalized : Bool :=
  (u.allComponents str).all (fun c => !u.same c [] && !u.same c dot && !u.same c dotDot)

def canTraverseUpward : Bool := str ≠ [] && !u.same (basename str) dotDot

def addComponent (removeDotDot : Bool) (result component : List UInt8) : List UInt8 :=
  if u.same component [] ∨ u.same component dot then result
  else if u.same component dotDot then
    if removeDotDot && u.canTraverseUpward result then u.dirname result else u.join result component
  else u.join result component

def rebuild (removeDotDotFromRelativePath : Bool) (str : List UInt8) : List UInt8 :=
  (u.enumerateSplits str).foldl (u.addComponent (isAbsolute str || removeDotDotFromRelativePath))
    (if isAbsolute str then [pathSeparatorUTF8] else [])

def normalize (removeDotDotFromRelativePath : Bool := true) : List UInt8 :=
  if u.same str dot then str
  else if u.isNormalized str then str
  else u.rebuild removeDotDotFromRelativePath str

def withoutTrailingSlash : List UInt8 :=
  if ¬ u.isRoot str ∧ (u.endsIn str pathSeparatorUTF8 ∨ u.endsIn str 92) then u.dropLast str else str

def joinComponent (result component : List UInt8) : List UInt8 :=
  if u.same component dot then result
  else if u.same component dotDot ∧
      ¬ (result = [] ∨ u.same (basename result) dotDot ∨ u.same (basename result) dot) then u.dirname result
  else if result = [] then component
  else result ++ pathSeparatorUTF8 :: component

def joinNormalizing (str rhs : List UInt8) : List UInt8 :=
  if str = [] ∨ isAbsolute rhs then (if u.isNormalized rhs then rhs else u.normalize rhs)
  else if rhs = [] then str
  else if u.isNormalized rhs then u.join str rhs
  else (u.enumerateSplits rhs).foldl u.joinComponent (u.withoutTrailingSlash str)

def endsTurn (s : List UInt8 × List UInt8) : Bool ⊕ List UInt8 × List UInt8 :=
  if s.1 = [] then .inl (decide (s.2 = []))
  else
    let (newBase, last) := u.split s.1
    let (newPathBase, pathLast) := u.split s.2
    if ¬ u.same last pathLast then .inl false
    else if newPathBase = [] then .inl true
    else .inr (newBase, newPathBase)

def withoutSlash : List UInt8 := if u.endsIn str pathSeparatorUTF8 then u.dropLast str else str

variable (fuel : Nat)

def endsWith (self path : List UInt8) : Option Bool :=
  if self = [] then some (decide (path = []))
  else if path = [] then some true
  else if u.isRoot self ∨ u.isRoot path then some (u.same self path)
  else if isAbsolute path ∧ ¬ isAbsolute self then some false
  else Loop.run u.endsTurn fuel (u.withoutSlash self, u.withoutSlash path)

def isAncestorTurn (lhs rhs : List UInt8) : Bool ⊕ List UInt8 :=
  if u.isRoot rhs then .inl false
  else if u.same lhs (u.dirname rhs) then .inl true
  else .inr (u.dirname rhs)

def isAncestor (self path : List UInt8) : Option Bool :=
  if ¬ (isAbsolute self ∧ isAbsolute path) then some false
  else Loop.run (u.isAncestorTurn (u.normalize self)) fuel (u.normalize path)

def isAncestorOrEqual (self path : List UInt8) : Option Bool :=
  if ¬ (isAbsolute self ∧ isAbsolute path) then some false
  else if u.same (u.normalize self) (u.normalize path) then some true
  else u.isAncestor fuel (u.normalize self) (u.normalize path)

def subpath (anc : List UInt8) : Nat → List UInt8 → Option (Option (List UInt8))
  | 0, _ => none
  | fuel + 1, dec =>
    if u.isRoot dec then some (if u.isRoot anc then some [] else none)
    else if u.same anc dec then some (some [])
    else
      (subpath anc fuel (u.dirname dec)).map fun result => result.map fun sub =>
        if sub = [] then basename dec else sub ++ pathSeparatorUTF8 :: basename dec

def relativeSubpath (self path : List UInt8) : Option (Option (List UInt8)) :=
  if ¬ (isAbsolute self ∧ isAbsolute path) then some none
  else if u.same self path then some (some [])
  else u.subpath (u.normalize path) fuel (u.normalize self)

def ancestorsTurn (s : List UInt8 × Finset (List UInt8)) : Finset (List UInt8) ⊕ List UInt8 × Finset (List UInt8) :=
  let path := u.dirname s.1
  let ancestors := insert path s.2
  if u.isRoot path then .inl ancestors else .inr (path, ancestors)

def addAncestors (ancestors : Finset (List UInt8)) (path : List UInt8) : Option (Finset (List UInt8)) :=
  if path = [] ∨ u.isRoot path then some ancestors else Loop.run u.ancestorsTurn fuel (path, ancestors)

/-- The spellings that have been inserted; a set keeps one of those that are the same. -/
def ancestors (paths : List (List UInt8)) : Option (Finset (List UInt8)) :=
  paths.foldlM (u.addAncestors fuel) ∅

/-! ## Plain paths -/

/-- Paths in which separators and backslashes are Characters of their own, and which are the same only if they are spelled
the same. The parts of such a path are such paths, and so are the paths that are put together from them. -/
structure Plain (S : Set (List UInt8)) : Prop where
  flatten_characters : ∀ str ∈ S, (u.characters str).flatten = str
  ne_nil : ∀ str ∈ S, ∀ c ∈ u.characters str, c ≠ []
  own : ∀ str ∈ S, ∀ c ∈ u.characters str, ∀ b, b = pathSeparatorUTF8 ∨ b = 92 →
    (b ∈ c → c = [b]) ∧ u.same c [b] = decide (c = [b])
  same_eq : ∀ a ∈ S, ∀ b ∈ S, u.same a b = decide (a = b)
  append_mem_iff : ∀ a b, a ++ pathSeparatorUTF8 :: b ∈ S ↔ a ∈ S ∧ b ∈ S
  of_backslash : ∀ a, a ++ [92] ∈ S → a ∈ S
  dots_mem : ∀ c ∈ [[], dot, dotDot], c ∈ S

section Plain

variable {u} {S : Set (List UInt8)} {str rhs c : List UInt8} (hu : u.Plain S)

include hu

theorem Plain.nil_mem : [] ∈ S := hu.dots_mem _ (by simp)

theorem Plain.same_dots (h : c ∈ S) :
    u.same c [] = decide (c = []) ∧ u.same c dot = decide (c = dot) ∧ u.same c dotDot = decide (c = dotDot) :=
  ⟨hu.same_eq c h _ hu.nil_mem, hu.same_eq c h dot (hu.dots_mem _ (by simp)),
    hu.same_eq c h dotDot (hu.dots_mem _ (by simp))⟩

theorem Plain.root_mem : [pathSeparatorUTF8] ∈ S := (hu.append_mem_iff [] []).mpr ⟨hu.nil_mem, hu.nil_mem⟩

theorem Plain.isRoot_eq (h : str ∈ S) : u.isRoot str = Path.isRoot str := hu.same_eq _ h _ hu.root_mem

theorem Plain.last (h : str ∈ S) {b : UInt8} (hb : b = pathSeparatorUTF8 ∨ b = 92) :
    u.endsIn str b = decide (str.getLast? = some b) ∧
      (str.getLast? = some b → u.dropLast str = str.dropLast ∧ str.dropLast ∈ S) := by
  have hflat := hu.flatten_characters str h
  unfold endsIn dropLast
  rcases eq_nil_or_concat (u.characters str) with hcs | ⟨cs, c, hcs⟩
  · rw [hcs] at hflat ⊢
    rw [← hflat]
    exact ⟨rfl, fun hb => absurd hb (by simp)⟩
  · rw [concat_eq_append] at hcs
    have hc : c ∈ u.characters str := by simp [hcs]
    obtain ⟨hown, hsame⟩ := hu.own str h c hc b hb
    rw [hcs, flatten_append, flatten_singleton] at hflat
    have hlast : str.getLast? = c.getLast? := by rw [← hflat, List.getLast?_append_of_ne_nil _ (hu.ne_nil str h c hc)]
    rw [hcs, List.getLast?_concat, dropLast_concat, hlast]
    constructor
    · show u.same c [b] = _
      rw [hsame, decide_eq_decide]
      constructor
      · rintro rfl
        rfl
      · exact fun hb => hown (mem_of_getLast? hb)
    · intro hmem
      rw [hown (mem_of_getLast? hmem)] at hflat
      rw [← hflat] at h ⊢
      rw [dropLast_concat]
      refine ⟨rfl, ?_⟩
      rcases hb with rfl | rfl
      · exact ((hu.append_mem_iff _ []).mp h).1
      · exact hu.of_backslash _ h

/-- The separator in front of an absolute path is its first Character. -/
theorem Plain.first (h : pathSeparatorUTF8 :: c ∈ S) :
    ∃ cs, u.characters (pathSeparatorUTF8 :: c) = [pathSeparatorUTF8] :: cs ∧ cs.flatten = c := by
  have hflat := hu.flatten_characters _ h
  cases hcs : u.characters (pathSeparatorUTF8 :: c) with
  | nil =>
    rw [hcs] at hflat
    exact absurd hflat.symm (cons_ne_nil _ _)
  | cons d cs =>
    have hd : d ∈ u.characters (pathSeparatorUTF8 :: c) := by simp [hcs]
    rw [hcs, flatten_cons] at hflat
    obtain ⟨b, d, rfl⟩ := exists_cons_of_ne_nil (hu.ne_nil _ h d hd)
    rw [cons_append, cons.injEq] at hflat
    obtain ⟨rfl, hflat⟩ := hflat
    have hown := ((hu.own _ h _ hd pathSeparatorUTF8 (.inl rfl)).1 mem_cons_self)
    obtain rfl : d = [] := by simpa using hown
    exact ⟨cs, rfl, hflat⟩

section

variable (h : str ∈ S)
include h

theorem Plain.split_spec :
    u.split str = Path.split str ∧ (Path.split str).1 ∈ S ∧ (Path.split str).2 ∈ S ∧ basename str = (Path.split str).2 := by
  rcases separator_cases str with hsep | ⟨x, c, rfl, hc⟩
  · rw [split_of_notMem hsep, basename_of_notMem hsep]
    refine ⟨?_, hu.nil_mem, h, rfl⟩
    unfold split
    rw [lastIndex_of_notMem hsep]
  · obtain ⟨hx, hcS⟩ := (hu.append_mem_iff x c).mp h
    have hsplit : u.split (x ++ pathSeparatorUTF8 :: c) = Path.split (x ++ pathSeparatorUTF8 :: c) := by
      unfold split Path.split
      rw [lastIndex_append x hc]
      cases x with
      | nil =>
        obtain ⟨cs, hcs, -⟩ := hu.first h
        dsimp only [nil_append]
        rw [hcs]
        rfl
      | cons b x => rfl
    rw [hsplit, split_append x hc, basename_append x hc]
    refine ⟨rfl, ?_, hcS, rfl⟩
    by_cases hnil : x = []
    · rw [if_pos hnil]
      exact hu.root_mem
    · rw [if_neg hnil]
      exact hx

theorem Plain.dirname_spec : u.dirname str = Path.dirname str ∧ Path.dirname str ∈ S := by
  obtain ⟨heq, hmem, -⟩ := hu.split_spec h
  exact ⟨congrArg Prod.fst heq, hmem⟩

theorem Plain.basename_mem : basename str ∈ S := by
  obtain ⟨-, -, hmem, heq⟩ := hu.split_spec h
  rwa [heq]

theorem Plain.join_spec (hrhs : rhs ∈ S) :
    u.join str rhs = Path.join str rhs ∧ Path.join str rhs ∈ S := by
  unfold join Path.join
  simp only [(hu.last h (.inl rfl)).1, decide_eq_true_eq, true_and]
  split_ifs with _ _ hlast
  · exact hrhs
  · exact h
  · obtain ⟨x, rfl⟩ := List.getLast?_eq_some_iff.mp hlast
    rw [append_assoc]
    exact (hu.append_mem_iff x rhs).mpr ⟨((hu.append_mem_iff x []).mp h).1, hrhs⟩
  · exact (hu.append_mem_iff str rhs).mpr ⟨h, hrhs⟩

/-! ### Components -/

theorem Plain.components_eq {cs : List (List UInt8)} (hcs : ∀ c ∈ cs, c ∈ u.characters str) :
    u.components cs = cs.flatten.splitOn pathSeparatorUTF8 := by
  unfold components
  induction cs with
  | nil => rfl
  | cons c cs ih =>
    have htail := ih (fun d hd => hcs d (mem_cons_of_mem c hd))
    obtain ⟨hown, hsame⟩ := hu.own str h c (hcs c mem_cons_self) pathSeparatorUTF8 (.inl rfl)
    rw [flatten_cons, splitOnP_cons_eq_if_modifyHead, hsame]
    by_cases hc : c = [pathSeparatorUTF8]
    · rw [if_pos (decide_eq_true hc), map_cons, htail, hc, singleton_append, splitOn_cons_eq_if_modifyHead,
        if_pos (beq_self_eq_true _)]
      rfl
    · rw [if_neg (by simpa using hc)]
      obtain ⟨d, ds, hds⟩ := exists_cons_of_ne_nil (splitOnP_ne_nil (fun c => u.same c [pathSeparatorUTF8]) cs)
      rw [hds] at htail ⊢
      have hsep : pathSeparatorUTF8 ∉ c := fun hmem => hc (hown hmem)
      clear hown hsame hc hcs
      induction c with
      | nil => exact htail
      | cons b c ihc =>
        have hb : ¬ (b == pathSeparatorUTF8) = true := by
          rw [beq_iff_eq]
          rintro rfl
          exact hsep mem_cons_self
        rw [cons_append, splitOn_cons_eq_if_modifyHead, if_neg hb, ← ihc (fun hmem => hsep (mem_cons_of_mem b hmem))]
        rfl

theorem Plain.mem_of_mem_splitOn : ∀ d ∈ str.splitOn pathSeparatorUTF8, d ∈ S := by
  have hjoin : [pathSeparatorUTF8].intercalate (str.splitOn pathSeparatorUTF8) = str := intercalate_splitOn _
  rw [← hjoin] at h
  revert h
  generalize str.splitOn pathSeparatorUTF8 = ds
  intro h
  induction ds with
  | nil => exact fun d hd => absurd hd not_mem_nil
  | cons d ds ih =>
    by_cases hds : ds = []
    · subst hds
      rw [intercalate_singleton] at h
      simpa using h
    · rw [intercalate_cons_of_ne_nil hds, append_assoc] at h
      obtain ⟨hd, hrest⟩ := (hu.append_mem_iff _ _).mp h
      exact forall_mem_cons.mpr ⟨hd, ih hrest⟩

theorem Plain.enumerateSplits_spec :
    u.enumerateSplits str = Path.enumerateSplits str ∧ ∀ d ∈ Path.enumerateSplits str, d ∈ S := by
  rw [enumerateSplits_eq]
  refine ⟨?_, fun d hd => hu.mem_of_mem_splitOn h d (mem_filter.mp hd).1⟩
  unfold enumerateSplits
  rw [hu.components_eq h (fun _ hc => hc), hu.flatten_characters str h]

theorem Plain.isNormalized_eq : u.isNormalized str = Path.isNormalized str := by
  have hall : u.allComponents str = Path.allComponents str ∧ ∀ d ∈ Path.allComponents str, d ∈ S := by
    unfold allComponents Path.allComponents
    by_cases habs : isAbsolute str = true
    · rw [if_pos habs, if_pos habs]
      obtain ⟨b, c, rfl⟩ := exists_cons_of_ne_nil (ne_nil_of_isAbsolute habs)
      obtain rfl : b = pathSeparatorUTF8 := by simpa [isAbsolute] using habs
      obtain ⟨cs, hcs, hflat⟩ := hu.first h
      rw [hcs]
      refine ⟨?_, hu.mem_of_mem_splitOn ((hu.append_mem_iff [] c).mp h).2⟩
      show u.components cs = c.splitOn _
      rw [hu.components_eq h (fun d hd => by rw [hcs]; exact mem_cons_of_mem _ hd), hflat]
    · rw [if_neg habs, if_neg habs, hu.components_eq h (fun _ hc => hc), hu.flatten_characters str h]
      exact ⟨rfl, hu.mem_of_mem_splitOn h⟩
  unfold isNormalized Path.isNormalized
  rw [hall.1, Bool.eq_iff_iff, all_eq_true, all_eq_true]
  refine forall₂_congr fun c hc => ?_
  obtain ⟨hnil, hdot, hdotDot⟩ := hu.same_dots (hall.2 c hc)
  rw [hnil, hdot, hdotDot]
  simp

end

/-! ### Normalization -/

theorem Plain.addComponent_spec (removeDotDot : Bool) (h : str ∈ S) (hc : c ∈ S) :
    u.addComponent removeDotDot str c = Path.addComponent removeDotDot str c ∧
      Path.addComponent removeDotDot str c ∈ S := by
  obtain ⟨hdir, hdirS⟩ := hu.dirname_spec h
  obtain ⟨hjoin, hjoinS⟩ := hu.join_spec h hc
  unfold addComponent Path.addComponent canTraverseUpward Path.canTraverseUpward
  simp only [hu.same_dots hc, hdir, hjoin, hu.same_dots (hu.basename_mem h), decide_eq_true_eq, ne_eq, decide_not,
    true_and]
  split_ifs
  · exact h
  · exact hdirS
  · exact hjoinS
  · exact hjoinS

theorem Plain.joinComponent_spec (h : str ∈ S) (hc : c ∈ S) :
    u.joinComponent str c = Path.joinComponent str c ∧ Path.joinComponent str c ∈ S := by
  obtain ⟨hdir, hdirS⟩ := hu.dirname_spec h
  unfold joinComponent Path.joinComponent
  simp only [hu.same_dots hc, hdir, hu.same_dots (hu.basename_mem h), decide_eq_true_eq, true_and]
  split_ifs
  · exact h
  · exact hdirS
  · exact hc
  · exact (hu.append_mem_iff str c).mpr ⟨h, hc⟩

omit hu in
theorem foldl_spec {f g : List UInt8 → List UInt8 → List UInt8}
    (hfg : ∀ r ∈ S, ∀ c ∈ S, f r c = g r c ∧ g r c ∈ S) {components : List (List UInt8)}
    (h : ∀ c ∈ components, c ∈ S) {r : List UInt8} (hr : r ∈ S) :
    components.foldl f r = components.foldl g r ∧ components.foldl g r ∈ S := by
  induction components generalizing r with
  | nil => exact ⟨rfl, hr⟩
  | cons c components ih =>
    obtain ⟨hc, hrest⟩ := forall_mem_cons.mp h
    obtain ⟨heq, hmem⟩ := hfg r hr c hc
    rw [foldl_cons, foldl_cons, heq]
    exact ih hrest hmem

theorem Plain.rebuild_spec (h : str ∈ S) : u.rebuild true str = Path.rebuild true str ∧ Path.rebuild true str ∈ S := by
  have hstart : (if isAbsolute str then [pathSeparatorUTF8] else []) ∈ S := by
    split_ifs
    · exact hu.root_mem
    · exact hu.nil_mem
  obtain ⟨hsplits, hmem⟩ := hu.enumerateSplits_spec h
  unfold rebuild Path.rebuild
  rw [hsplits]
  exact foldl_spec (fun r hr c hc => hu.addComponent_spec _ hr hc) hmem hstart

theorem Plain.normalize_spec (h : str ∈ S) : u.normalize str = Path.normalize str ∧ Path.normalize str ∈ S := by
  have hrebuild := hu.rebuild_spec h
  unfold normalize Path.normalize
  simp only [hu.same_dots h, hu.isNormalized_eq h, hrebuild.1, decide_eq_true_eq, true_and]
  split_ifs
  · exact h
  · exact h
  · exact hrebuild.2

theorem Plain.joinNormalizing_eq (h : str ∈ S) (hrhs : rhs ∈ S) :
    u.joinNormalizing str rhs = Path.joinNormalizing str rhs := by
  have hwithout : u.withoutTrailingSlash str = Path.withoutTrailingSlash str ∧ Path.withoutTrailingSlash str ∈ S := by
    obtain ⟨hslash, hdrop⟩ := hu.last h (b := pathSeparatorUTF8) (.inl rfl)
    obtain ⟨hback, hdrop'⟩ := hu.last h (b := 92) (.inr rfl)
    unfold withoutTrailingSlash Path.withoutTrailingSlash
    simp only [hslash, hback, hu.isRoot_eq h, decide_eq_true_eq]
    split_ifs with hcut
    · exact hcut.2.elim hdrop hdrop'
    · exact ⟨rfl, h⟩
  obtain ⟨hsplits, hmem⟩ := hu.enumerateSplits_spec hrhs
  have hfold := foldl_spec (fun r hr c hc => hu.joinComponent_spec hr hc) hmem hwithout.2
  unfold joinNormalizing Path.joinNormalizing
  rw [hu.isNormalized_eq hrhs, (hu.normalize_spec hrhs).1, (hu.join_spec h hrhs).1, hsplits, hwithout.1, hfold.1]

/-! ### The tests -/

theorem Plain.endsWith_eq (hp : str ∈ S) (hq : rhs ∈ S) (fuel : Nat) :
    u.endsWith fuel str rhs = Path.endsWith fuel str rhs := by
  have hwithout : ∀ str ∈ S, u.withoutSlash str = Path.withoutSlash str ∧ Path.withoutSlash str ∈ S := by
    intro str h
    obtain ⟨hslash, hdrop⟩ := hu.last h (b := pathSeparatorUTF8) (.inl rfl)
    unfold withoutSlash Path.withoutSlash
    simp only [hslash, decide_eq_true_eq]
    split_ifs with hcut
    · exact hdrop hcut
    · exact ⟨rfl, h⟩
  have hturn : ∀ s : List UInt8 × List UInt8, s.1 ∈ S ∧ s.2 ∈ S → u.endsTurn s = Path.endsTurn s ∧
      ∀ t, Path.endsTurn s = .inr t → t.1 ∈ S ∧ t.2 ∈ S := by
    rintro ⟨base, pathBase⟩ ⟨hbase, hpathBase⟩
    obtain ⟨hsplit, hdir, hlast, -⟩ := hu.split_spec hbase
    obtain ⟨hsplit', hdir', hlast', -⟩ := hu.split_spec hpathBase
    unfold endsTurn Path.endsTurn
    dsimp only
    rw [hsplit, hsplit', hu.same_eq _ hlast _ hlast']
    simp only [decide_eq_true_eq, ne_eq, true_and]
    intro t ht
    split_ifs at ht
    cases ht
    exact ⟨hdir, hdir'⟩
  unfold endsWith Path.endsWith
  rw [hu.isRoot_eq hp, hu.isRoot_eq hq, hu.same_eq _ hp _ hq, (hwithout str hp).1, (hwithout rhs hq).1,
    Loop.run_congr hturn ⟨(hwithout str hp).2, (hwithout rhs hq).2⟩]
  simp [Path.isRoot]

theorem Plain.isAncestor_eq (hp : str ∈ S) (hq : rhs ∈ S) (fuel : Nat) :
    u.isAncestor fuel str rhs = Path.isAncestor fuel str rhs := by
  obtain ⟨hnorm, hnormS⟩ := hu.normalize_spec hp
  obtain ⟨hnorm', hnormS'⟩ := hu.normalize_spec hq
  have hturn : ∀ s ∈ S, u.isAncestorTurn (Path.normalize str) s = Path.isAncestorTurn (Path.normalize str) s ∧
      ∀ t, Path.isAncestorTurn (Path.normalize str) s = .inr t → t ∈ S := by
    intro s hs
    obtain ⟨hdir, hdirS⟩ := hu.dirname_spec hs
    unfold isAncestorTurn Path.isAncestorTurn
    rw [hdir, hu.isRoot_eq hs, hu.same_eq _ hnormS _ hdirS]
    simp only [decide_eq_true_eq, true_and]
    intro t ht
    split_ifs at ht
    cases ht
    exact hdirS
  unfold isAncestor Path.isAncestor
  rw [hnorm, hnorm', Loop.run_congr hturn hnormS']

theorem Plain.isAncestorOrEqual_eq (hp : str ∈ S) (hq : rhs ∈ S) (fuel : Nat) :
    u.isAncestorOrEqual fuel str rhs = Path.isAncestorOrEqual fuel str rhs := by
  obtain ⟨hnorm, hnormS⟩ := hu.normalize_spec hp
  obtain ⟨hnorm', hnormS'⟩ := hu.normalize_spec hq
  unfold isAncestorOrEqual Path.isAncestorOrEqual
  rw [hnorm, hnorm', hu.same_eq _ hnormS _ hnormS', hu.isAncestor_eq hnormS hnormS']
  simp only [decide_eq_true_eq]

theorem Plain.relativeSubpath_eq (hp : str ∈ S) (hq : rhs ∈ S) (fuel : Nat) :
    u.relativeSubpath fuel str rhs = Path.relativeSubpath fuel str rhs := by
  obtain ⟨hnorm, hnormS⟩ := hu.normalize_spec hp
  obtain ⟨hnorm', hnormS'⟩ := hu.normalize_spec hq
  have hsub : ∀ dec ∈ S, u.subpath (Path.normalize rhs) fuel dec = Path.subpath (Path.normalize rhs) fuel dec := by
    induction fuel with
    | zero => exact fun _ _ => rfl
    | succ fuel ih =>
      intro dec hdec
      obtain ⟨hdir, hdirS⟩ := hu.dirname_spec hdec
      unfold subpath Path.subpath
      rw [hu.isRoot_eq hdec, hu.isRoot_eq hnormS', hu.same_eq _ hnormS' _ hdec, hdir, ih _ hdirS]
      simp only [decide_eq_true_eq]
  unfold relativeSubpath Path.relativeSubpath
  rw [hnorm, hnorm', hu.same_eq _ hp _ hq, hsub _ hnormS]
  simp only [decide_eq_true_eq]

theorem Plain.ancestors_eq {paths : List (List UInt8)} (h : ∀ p ∈ paths, p ∈ S) (fuel : Nat) :
    u.ancestors fuel paths = Path.ancestors fuel paths := by
  have hturn : ∀ s : List UInt8 × Finset (List UInt8), s.1 ∈ S → u.ancestorsTurn s = Path.ancestorsTurn s ∧
      ∀ t, Path.ancestorsTurn s = .inr t → t.1 ∈ S := by
    intro s hs
    obtain ⟨hdir, hdirS⟩ := hu.dirname_spec hs
    unfold ancestorsTurn Path.ancestorsTurn
    dsimp only
    rw [hdir, hu.isRoot_eq hdirS]
    refine ⟨rfl, fun t ht => ?_⟩
    split_ifs at ht
    cases ht
    exact hdirS
  unfold ancestors Path.ancestors
  generalize (∅ : Finset (List UInt8)) = s
  induction paths generalizing s with
  | nil => rfl
  | cons p paths ih =>
    obtain ⟨hp, hpaths⟩ := forall_mem_cons.mp h
    have hadd : u.addAncestors fuel s p = Path.addAncestors fuel s p := by
      unfold addAncestors Path.addAncestors
      rw [hu.isRoot_eq hp, Loop.run_congr hturn hp]
    rw [foldlM_cons, foldlM_cons, hadd]
    exact congrArg _ (funext (ih hpaths))

end Plain

/-! ## The results -/

/-- Strings in ASCII, without line ends. -/
def ascii : Unicode where
  characters str := str.map (fun b => [b])
  same a b := decide (a = b)
  same_self _ := decide_eq_true rfl

theorem ascii_plain : ascii.Plain Set.univ where
  flatten_characters str _ := flatMap_singleton' str
  ne_nil str _ c hc := by
    obtain ⟨b, -, rfl⟩ := mem_map.mp hc
    exact cons_ne_nil b []
  own str _ c hc b _ := by
    obtain ⟨d, -, rfl⟩ := mem_map.mp hc
    exact ⟨fun hb => by rw [mem_singleton.mp hb], rfl⟩
  same_eq _ _ _ _ := rfl
  append_mem_iff _ _ := by simp
  of_backslash _ _ := trivial
  dots_mem _ _ := trivial

section

variable {u} {S : Set (List UInt8)} {p q r : List UInt8}

/-- The test ends, and compares components, unless both paths come to the root together. -/
theorem endsWith_iff (hu : u.Plain S) (hp : p ∈ S) (hq : q ∈ S) :
    (∃ fuel b, u.endsWith fuel p q = some b ∧
      (p ≠ [] → q ≠ [] → p ≠ [pathSeparatorUTF8] → q ≠ [pathSeparatorUTF8] → (b = true ↔ IsEndOf q p))) ↔
      ¬ MeetAtRoot p q := by
  simp only [hu.endsWith_eq hp hq]
  exact endsWith_bytes p q

/-- `/a/b` ends with `b`. -/
theorem endsWith_last : ∃ fuel, ascii.endsWith fuel [pathSeparatorUTF8, 97, pathSeparatorUTF8, 98] [98] = some true := by
  have hnot : ¬ MeetAtRoot [pathSeparatorUTF8, 97, pathSeparatorUTF8, 98] [98] :=
    fun h => absurd h.isAbsolute_right (by decide)
  obtain ⟨fuel, b, hrun, hb⟩ := (endsWith_iff ascii_plain trivial trivial).mpr hnot
  obtain rfl : b = true := (hb (by decide) (by decide) (by decide) (by decide)).mpr (by unfold IsEndOf; decide)
  exact ⟨fuel, hrun⟩

/-- `/a` against itself. -/
theorem endsWith_self : ¬ ∀ p q : List UInt8, ∃ fuel b, ascii.endsWith fuel p q = some b ∧
    (p ≠ [] → q ≠ [] → p ≠ [pathSeparatorUTF8] → q ≠ [pathSeparatorUTF8] → (b = true ↔ IsEndOf q p)) := by
  intro h
  have hself := h [pathSeparatorUTF8, 97] [pathSeparatorUTF8, 97]
  simp only [ascii_plain.endsWith_eq trivial trivial] at hself
  exact (endsWith_bytes _ _).mp hself ⟨by decide, by decide, by decide, by decide, rfl⟩

/-- Normalization follows the rule, the fast path makes no difference, and normalizing again changes nothing; joining
with normalization is joining and then normalizing as far as `JoinsCleanly`. -/
theorem normalization (hu : u.Plain S) (hp : p ∈ S) (hr : r ∈ S) :
    (∀ str ∈ S, str ≠ dot → u.normalize str = normalForm str) ∧
      (∀ str ∈ S, u.isNormalized str = true → u.rebuild true str = str) ∧
      (∀ str ∈ S, u.normalize (u.normalize str) = u.normalize str) ∧
      (isAbsolute p = true → u.normalize p = p → isAbsolute r = false →
        (u.joinNormalizing p r = u.normalize (u.join p r) ↔ JoinsCleanly p r)) := by
  refine ⟨?_, ?_, ?_, ?_⟩
  · intro str h hdot
    rw [(hu.normalize_spec h).1, normalize_eq_normalForm hdot]
  · intro str h hnorm
    rw [hu.isNormalized_eq h] at hnorm
    rw [(hu.rebuild_spec h).1, rebuild_eq, normalForm_of_isNormalized hnorm]
  · intro str h
    obtain ⟨hnorm, hmem⟩ := hu.normalize_spec h
    rw [hnorm, (hu.normalize_spec hmem).1, normalize_normalize]
  · obtain ⟨hjoin, hjoinS⟩ := hu.join_spec hp hr
    rw [(hu.normalize_spec hp).1, hu.joinNormalizing_eq hp hr, hjoin, (hu.normalize_spec hjoinS).1]
    exact joinNormalizing_eq_iff

/-- `/a/b` and `../c`. -/
theorem normalization_up :
    ascii.joinNormalizing [pathSeparatorUTF8, 97, pathSeparatorUTF8, 98] (dotDot ++ [pathSeparatorUTF8, 99]) =
      ascii.normalize (ascii.join [pathSeparatorUTF8, 97, pathSeparatorUTF8, 98] (dotDot ++ [pathSeparatorUTF8, 99])) := by
  have hnorm : ascii.normalize [pathSeparatorUTF8, 97, pathSeparatorUTF8, 98]
      = [pathSeparatorUTF8, 97, pathSeparatorUTF8, 98] := by decide
  have hclean : JoinsCleanly [pathSeparatorUTF8, 97, pathSeparatorUTF8, 98] (dotDot ++ [pathSeparatorUTF8, 99]) := by
    unfold JoinsCleanly climb
    rw [Path.enumerateSplits_eq]
    decide
  exact ((normalization ascii_plain trivial trivial).2.2.2 (by decide) hnorm (by decide)).mpr hclean

/-- Behind the root, `./a` becomes `//a`. -/
theorem joinNormalizing_root : ¬ ∀ p r, isAbsolute p = true → ascii.normalize p = p → isAbsolute r = false →
    ascii.joinNormalizing p r = ascii.normalize (ascii.join p r) := by
  intro h
  exact absurd (h [pathSeparatorUTF8] (dot ++ [pathSeparatorUTF8, 97]) (by decide) (by decide) (by decide)) (by decide)

/-- The tests on absolute paths compare components, and `ancestors` collects the proper ancestors exactly where every
path climbs cleanly. -/
theorem ancestor_tests (hu : u.Plain S) {paths : List (List UInt8)} (hpaths : ∀ p ∈ paths, p ∈ S) :
    (∀ p ∈ S, ∀ q ∈ S, isAbsolute p = true → isAbsolute q = true →
      (∃ fuel b, u.isAncestor fuel p q = some b ∧
        (b = true ↔ resolved p <+: resolved q ∧ resolved p ≠ resolved q)) ∧
      (∃ fuel b, u.isAncestorOrEqual fuel p q = some b ∧ (b = true ↔ resolved p <+: resolved q)) ∧
      ∃ fuel result, u.relativeSubpath fuel q p = some result ∧ (result.isSome = true ↔ resolved p <+: resolved q) ∧
        ∀ sub, result = some sub →
          ∃ rest, resolved q = resolved p ++ rest ∧ sub = [pathSeparatorUTF8].intercalate rest) ∧
    ((∃ fuel result, u.ancestors fuel paths = some result ∧ AreAncestors result paths) ↔ ClimbsCleanly paths) := by
  simp only [hu.ancestors_eq hpaths]
  refine ⟨?_, ancestors_iff paths⟩
  intro p hp q hq hpabs hqabs
  simp only [hu.isAncestor_eq hp hq, hu.isAncestorOrEqual_eq hp hq, hu.relativeSubpath_eq hq hp]
  exact ⟨isAncestor_ends hpabs hqabs, isAncestorOrEqual_ends hpabs hqabs, relativeSubpath_ends hpabs hqabs⟩

/-- `/a` is an ancestor of `/a/b`. -/
theorem ancestor_tests_a : ∃ fuel, ascii.isAncestor fuel [pathSeparatorUTF8, 97]
    [pathSeparatorUTF8, 97, pathSeparatorUTF8, 98] = some true := by
  obtain ⟨fuel, b, hrun, hb⟩ := ((ancestor_tests ascii_plain (forall_mem_nil _)).1 [pathSeparatorUTF8, 97] trivial
    [pathSeparatorUTF8, 97, pathSeparatorUTF8, 98] trivial (by decide) (by decide)).1
  obtain rfl : b = true := hb.mpr (by decide)
  exact ⟨fuel, hrun⟩

/-- The loop does not end for `a`. -/
theorem ancestors_relative : ¬ ∀ paths : List (List UInt8),
    ∃ fuel result, ascii.ancestors fuel paths = some result ∧ AreAncestors result paths := by
  intro h
  obtain ⟨fuel, result, hrun, -⟩ := h [[97]]
  rw [ascii_plain.ancestors_eq (fun _ _ => trivial)] at hrun
  exact foldlM_eq_none mem_cons_self (cons_ne_nil _ _) (by decide) hrun

end

end Unicode

end Builra.Path
