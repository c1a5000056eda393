import Builra.BuildSystem.DirectoryTasks
import Builra.BuildSystem.LinkedFileSystem
import Builra.Lib.FiniteReach
import Mathlib.Data.List.TakeWhile

namespace Builra

open List LinkedFileSystem
open Option hiding any_eq_false

/-!
# `BuildSystem.DirectoryLinks` — directory listings with symlinks

The listings of directories, filtered or not, and the recursion of tree signatures over them, when there are symlinks.
A symlink to a directory above is to be left out of a listing, so that the recursion does not get stuck in a loop. The
test for this compares the text of a real path with the text of the path that is listed; the filtered listing has no
such test. `listing_recursion_iff` says for which directories the listing is right and for which the recursion ends.

* `listsEntries_iff`: a listing is right if the test agrees with the directories above.
* `Chain`, `Loops`: names that are listed one below the other, and when they come back to a directory.
* `not_leftOut_of_returns`: what was listed on the way around is listed the next time.
-/

open FileSystem (Name Path slash append ProperName)
open LinkedFileSystem (text)

namespace DirectoryLinks

variable (fs : LinkedFileSystem) (filenameMatch : Name → Name → Bool)

/-! ## Listings -/

/-- `DirectoryContentsTask::getContents`. The status of an entry is that of the symlink itself, which can always be
    read. -/
def getContents (path : Path) : List Name :=
  ((fs.names path).filter fun filename =>
    !(fs.isSymlinkFile path filename &&
      (fs.realPath (append path filename)).any fun resolvedPath => resolvedPath.isPrefixOf path)).mergeSort
    fun a b => decide (a ≤ b)

/-- The names up to the first one whose status cannot be read: there the iterator, which follows symlinks, ends. -/
def statedNames (path : Path) : List Name :=
  (fs.names path).takeWhile fun filename => (fs.locate (append path filename)).isSome

variable (filters : List Name)

variable (path : Path)

/-- `FilteredDirectoryContentsTask::getFilteredContents`. -/
def getFilteredContents : List Name :=
  ((statedNames fs path).filter fun filename =>
    !filters.any fun pattern => filenameMatch pattern filename).mergeSort fun a b => decide (a ≤ b)

/-- The listing that a tree signature with these filters asks for. -/
def listing : List Name :=
  if filters = [] then getContents fs path else getFilteredContents fs filenameMatch filters path

/-- The paths whose nodes, and then signatures, are requested for a tree signature. -/
def children : List Path :=
  if (fs.getFileInfo path).isDirectory then (listing fs filenameMatch filters path).map (append path) else []

/-- The paths that the recursion from a path visits. -/
def visited : Set Path :=
  FiniteReach.reach (fun a b => b ∈ children fs filenameMatch filters a) path

/-! ## What a listing leaves out -/

/-- The test of `getContents`: a symlink with a real path that is written at the start of the path listed. -/
def WrittenAtStart (x : Name) : Prop :=
  fs.isSymlinkFile path x = true ∧ ∃ resolvedPath, fs.realPath (append path x) = some resolvedPath ∧
    resolvedPath <+: path

/-- What the test is about: a symlink to the directory itself or to one above. -/
def LeadsUp (x : Name) : Prop :=
  fs.isSymlinkFile path x = true ∧ ∃ q links r links', fs.locate path = some (q, links) ∧
    fs.locate (append path x) = some (r, links') ∧ r <+: q

/-- The names that are left out. -/
def LeftOut (x : Name) : Prop :=
  if filters = [] then WrittenAtStart fs path x
  else (∃ pattern ∈ filters, filenameMatch pattern x = true) ∨ x ∉ statedNames fs path

variable {fs filenameMatch}

variable {path t t' : Path} {x : Name} {q u w r : List Name}

theorem mem_getContents :
    x ∈ getContents fs path ↔ x ∈ fs.names path ∧ ¬ WrittenAtStart fs path x := by
  have htest : (fs.isSymlinkFile path x && (fs.realPath (append path x)).any fun resolvedPath =>
      resolvedPath.isPrefixOf path) = true ↔ WrittenAtStart fs path x := by
    rw [Bool.and_eq_true, WrittenAtStart]
    refine and_congr_right fun _ => ?_
    cases fs.realPath (append path x) with
    | none => simp
    | some resolvedPath => simp
  rw [getContents, mem_mergeSort, mem_filter, Bool.not_eq_true', ← htest, Bool.not_eq_true]

theorem mem_listing {filters : List Name} :
    x ∈ listing fs filenameMatch filters path ↔ x ∈ fs.names path ∧ ¬ LeftOut fs filenameMatch filters path x := by
  by_cases hfilters : filters = []
  · rw [listing, LeftOut, if_pos hfilters, if_pos hfilters]
    exact mem_getContents
  · rw [listing, LeftOut, if_neg hfilters, if_neg hfilters, getFilteredContents, mem_mergeSort, mem_filter,
      not_or, not_not, Bool.not_eq_true', any_eq_false]
    constructor
    · rintro ⟨hstated, hmatch⟩
      refine ⟨(takeWhile_sublist _).subset hstated, fun ⟨pattern, hpattern, h⟩ => ?_, hstated⟩
      exact hmatch pattern hpattern h
    · rintro ⟨-, hmatch, hstated⟩
      exact ⟨hstated, fun pattern hpattern h => hmatch ⟨pattern, hpattern, h⟩⟩

theorem pairwise_mergeSort_names (l : List Name) :
    (l.mergeSort fun a b => decide (a ≤ b)).Pairwise fun a b => a ≤ b := by
  have hsorted : (l.mergeSort fun a b => decide (a ≤ b)).Pairwise fun a b => decide (a ≤ b) = true := by
    apply pairwise_mergeSort
    · intro a b c hab hbc
      simp only [decide_eq_true_eq] at hab hbc ⊢
      exact List.le_trans hab hbc
    · intro a b
      simpa using List.le_total a b
  exact hsorted.imp fun h => of_decide_eq_true h

variable (fs)

/-- A right listing: sorted, once each, and all entries but the symlinks to the directory itself or to one above. -/
structure ListsEntries (path : Path) : Prop where
  sorted : (getContents fs path).Pairwise fun a b => a ≤ b
  nodup : (getContents fs path).Nodup
  mem_iff : ∀ x, x ∈ getContents fs path ↔ x ∈ fs.names path ∧ ¬ LeadsUp fs path x

/-- The real path to which a symlink resolves is written at the start of the path listed exactly when it is one of the
    directory or of one above it. -/
def TargetsAgree (path : Path) : Prop :=
  ∀ x q links r links', fs.isSymlinkFile path x = true → fs.locate path = some (q, links) →
    fs.locate (append path x) = some (r, links') → (text r <+: path ↔ r <+: q)

variable {fs}

theorem mem_names_of_isSymlinkFile (h : fs.isSymlinkFile path x = true) :
    x ∈ fs.names path := by
  unfold isSymlinkFile at h
  split at h
  · cases h
  · rename_i q links hq
    split at h
    · rename_i target further hx
      exact mem_names.mpr ⟨q, links, hq, by simp [hx]⟩
    · cases h

theorem listsEntries_iff : ListsEntries fs path ↔ TargetsAgree fs path := by
  constructor
  · intro hlists x q links r links' hlink hq hr
    have hmem := (mem_getContents (x := x)).symm.trans (hlists.mem_iff x)
    have hnames := mem_names_of_isSymlinkFile hlink
    have hiff : WrittenAtStart fs path x ↔ LeadsUp fs path x :=
      not_iff_not.mp ⟨fun h => (hmem.mp ⟨hnames, h⟩).2, fun h => (hmem.mpr ⟨hnames, h⟩).2⟩
    have hreal : fs.realPath (append path x) = some (text r) := by rw [realPath, hr]; rfl
    constructor
    · intro hstart
      obtain ⟨-, q', _, r', _, hq', hr', hprefix⟩ := hiff.mp ⟨hlink, text r, hreal, hstart⟩
      rw [hq] at hq'
      rw [hr] at hr'
      cases hq'
      cases hr'
      exact hprefix
    · intro hprefix
      obtain ⟨-, resolvedPath, hresolved, hstart⟩ := hiff.mpr ⟨hlink, q, links, r, links', hq, hr, hprefix⟩
      rw [hreal] at hresolved
      cases hresolved
      exact hstart
  · intro hagree
    refine ⟨pairwise_mergeSort_names _, ?_, fun x => ?_⟩
    · exact (mergeSort_perm _ _).nodup_iff.mpr ((nodup_names path).filter _)
    · rw [mem_getContents]
      refine and_congr_right fun hx => not_congr ⟨?_, ?_⟩
      · rintro ⟨hlink, resolvedPath, hresolved, hstart⟩
        obtain ⟨⟨r, links'⟩, hr, rfl⟩ := map_eq_some_iff.mp hresolved
        obtain ⟨q, links, hq, -⟩ := mem_names.mp hx
        exact ⟨hlink, q, links, r, links', hq, hr, (hagree x q links r links' hlink hq hr).mp hstart⟩
      · rintro ⟨hlink, q, links, r, links', hq, hr, hprefix⟩
        refine ⟨hlink, text r, ?_, (hagree x q links r links' hlink hq hr).mpr hprefix⟩
        rw [realPath, hr]
        rfl

/-! ## Chains of names -/

/-- The path for names one below the other. -/
def extend (path : Path) (w : List Name) : Path := w.foldl append path

variable (fs filenameMatch)

/-- Names that are listed one below the other, from a path on. -/
def Chain (filters : List Name) (path : Path) : List Name → Prop
  | [] => True
  | x :: w => (x ∈ fs.names path ∧ ¬ LeftOut fs filenameMatch filters path x) ∧ Chain filters (append path x) w

/-- The position that a path leads to. -/
def position (path : Path) : Option (List Name) := (fs.locate path).map fun pos => pos.1

/-- Some names that are listed one below the other lead from a directory, which is reached, back to it. -/
def Loops (filters : List Name) (path : Path) : Prop :=
  ∃ u w, w ≠ [] ∧ Chain fs filenameMatch filters path (u ++ w) ∧
    position fs (extend path (u ++ w)) = position fs (extend path u)

variable {fs filenameMatch} {filters : List Name}

theorem extend_append (path : Path) (u w : List Name) : extend path (u ++ w) = extend (extend path u) w :=
  foldl_append

theorem isPrefix_extend (path : Path) (w : List Name) : path <+: extend path w := by
  induction w generalizing path with
  | nil => exact prefix_rfl
  | cons x w ih => exact (isPrefix_append path x).trans (ih (append path x))

theorem chain_append : Chain fs filenameMatch filters path (u ++ w) ↔
    Chain fs filenameMatch filters path u ∧ Chain fs filenameMatch filters (extend path u) w := by
  induction u generalizing path with
  | nil => exact ⟨fun h => ⟨trivial, h⟩, fun h => h.2⟩
  | cons x u ih =>
    rw [cons_append, Chain, Chain, ih]
    exact and_assoc.symm

theorem mem_children {a b : Path} : b ∈ children fs filenameMatch filters a ↔
    ∃ x, (x ∈ fs.names a ∧ ¬ LeftOut fs filenameMatch filters a x) ∧ b = append a x := by
  unfold children
  constructor
  · intro h
    split at h
    · obtain ⟨x, hx, rfl⟩ := mem_map.mp h
      exact ⟨x, mem_listing.mp hx, rfl⟩
    · cases h
  · rintro ⟨x, hx, rfl⟩
    rw [if_pos (isDirectory_of_mem_names hx.1)]
    exact mem_map_of_mem (mem_listing.mpr hx)

/-- **The paths visited** are those for the chains. -/
theorem mem_visited : t ∈ visited fs filenameMatch filters path ↔
    ∃ w, Chain fs filenameMatch filters path w ∧ t = extend path w := by
  constructor
  · intro h
    induction h with
    | refl => exact ⟨[], trivial, rfl⟩
    | tail _ hstep ih =>
      obtain ⟨w, hw, rfl⟩ := ih
      obtain ⟨x, hx, rfl⟩ := mem_children.mp hstep
      exact ⟨w ++ [x], chain_append.mpr ⟨hw, hx, trivial⟩, (extend_append path w [x]).symm⟩
  · rintro ⟨w, hw, rfl⟩
    induction w generalizing path with
    | nil => exact Relation.ReflTransGen.refl
    | cons x w ih => exact .head (mem_children.mpr ⟨x, hw.1, rfl⟩) (ih hw.2)

theorem exists_chain_of_transGen {a b : Path}
    (h : Relation.TransGen (fun a b => b ∈ children fs filenameMatch filters a) a b) :
    ∃ w, w ≠ [] ∧ Chain fs filenameMatch filters a w ∧ b = extend a w := by
  obtain ⟨c, hstep, hreach⟩ := Relation.TransGen.head'_iff.mp h
  obtain ⟨x, hx, rfl⟩ := mem_children.mp hstep
  obtain ⟨w, hw, rfl⟩ := mem_visited.mp hreach
  exact ⟨x :: w, cons_ne_nil x w, ⟨hx, hw⟩, rfl⟩

/-- The names of a chain make the path longer. -/
theorem length_lt_extend (hne : w ≠ []) (h : Chain fs filenameMatch filters path w) :
    path.length < (extend path w).length := by
  cases w with
  | nil => exact absurd rfl hne
  | cons x w =>
    have hx := length_lt_append path (proper_of_mem_names h.1.1)
    exact lt_of_lt_of_le hx (isPrefix_extend (append path x) w).length_le

/-! ## Recursions that end -/

theorem finite_children (path : Path) : {t | t ∈ children fs filenameMatch filters path}.Finite :=
  finite_toSet _

/-- What stands at a name that is listed: an entry one level further down, or a symlink. -/
theorem locate_child {pos' : List Name × Nat} (hx : x ∈ fs.names path) (h : fs.locate (append path x) = some pos') :
    ∃ q links, fs.locate path = some (q, links) ∧
      (pos' = (q ++ [x], links) ∨ fs.isSymlinkFile path x = true ∧ links < pos'.2) := by
  obtain ⟨q, links, hq, hsome⟩ := mem_names.mp hx
  refine ⟨q, links, hq, ?_⟩
  rw [locate_append_of_mem hq hx] at h
  cases hnode : fs.node (q ++ [x]) with
  | none =>
    rw [hnode] at hsome
    cases hsome
  | some node =>
    rw [hnode] at h
    cases node with
    | entry e =>
      cases h
      exact Or.inl rfl
    | symlink target further =>
      simp only at h
      split at h
      · obtain ⟨r, -, rfl⟩ := map_eq_some_iff.mp h
        refine Or.inr ⟨?_, ?_⟩
        · rw [isSymlinkFile, hq]
          simp only [hnode]
        · show links < links + 1 + further
          omega
      · cases h

/-- With a limit for symlinks: how far the recursion can go on from a path. -/
def remaining (fs : LinkedFileSystem) (maxLinks : Nat) (path : Path) : Nat :=
  match fs.locate path with
  | none => 0
  | some (q, links) => 1 + (maxLinks - links) * (fs.depth + 1) + (fs.depth - q.length)

/-- A symlink takes one of those that are left, and a name one level. -/
theorem remaining_lt {maxLinks : Nat} (hmax : fs.maxLinks = some maxLinks)
    (h : t ∈ children fs filenameMatch filters path) : remaining fs maxLinks t < remaining fs maxLinks path := by
  obtain ⟨x, ⟨hx, -⟩, rfl⟩ := mem_children.mp h
  obtain ⟨q, links, hq, -⟩ := mem_names.mp hx
  have hpath : remaining fs maxLinks path = 1 + (maxLinks - links) * (fs.depth + 1) + (fs.depth - q.length) := by
    rw [remaining, hq]
  cases hchild : fs.locate (append path x) with
  | none =>
    rw [hpath, remaining, hchild]
    show 0 < 1 + _ + _
    omega
  | some pos =>
    obtain ⟨r, links'⟩ := pos
    have ht : remaining fs maxLinks (append path x) =
        1 + (maxLinks - links') * (fs.depth + 1) + (fs.depth - r.length) := by rw [remaining, hchild]
    obtain ⟨⟨e, he⟩, hallows⟩ := entry_of_locate hchild
    have hdepth : r.length ≤ fs.depth := fs.bounded r (by simp [he])
    rw [allows, hmax] at hallows
    have hle : links' ≤ maxLinks := of_decide_eq_true hallows
    obtain ⟨q', links₁, hq', hcase⟩ := locate_child hx hchild
    rw [hq] at hq'
    cases hq'
    rw [ht, hpath]
    rcases hcase with hcase | ⟨-, hlinks⟩
    · cases hcase
      rw [length_append, length_singleton] at hdepth ⊢
      omega
    · have hmul : (maxLinks - links') * (fs.depth + 1) + (fs.depth + 1) ≤ (maxLinks - links) * (fs.depth + 1) := by
        rw [← Nat.succ_mul]
        refine Nat.mul_le_mul_right _ ?_
        have hlt : links < links' := hlinks
        omega
      omega

/-- **With a limit for symlinks** the recursion ends. -/
theorem finite_visited_of_maxLinks {maxLinks : Nat} (hmax : fs.maxLinks = some maxLinks) (path : Path) :
    (visited fs filenameMatch filters path).Finite := by
  refine FiniteReach.finite_reach ?_ fun t _ => finite_children t
  have hwf : WellFounded fun b a => remaining fs maxLinks b < remaining fs maxLinks a :=
    InvImage.wf (remaining fs maxLinks) wellFounded_lt
  exact Subrelation.accessible (fun h => remaining_lt hmax h) (hwf.apply path)

/-- **Without loops** the recursion ends: a chain comes to each position once, apart from a name at its end that leads
    nowhere. -/
theorem finite_visited_of_not_loops (h : ¬ Loops fs filenameMatch filters path) :
    (visited fs filenameMatch filters path).Finite := by
  refine FiniteReach.finite_reach ?_ fun t _ => finite_children t
  refine FiniteReach.acc_of_label (position fs)
    ((fs.finite_positions.image some).union (Set.finite_singleton none)) (fun t _ => ?_) fun t ht t' hchain heq => ?_
  · unfold position
    cases hpos : fs.locate t with
    | none => exact Or.inr rfl
    | some pos =>
      obtain ⟨⟨e, he⟩, -⟩ := entry_of_locate hpos
      exact Or.inl ⟨pos.1, by simp [he], rfl⟩
  · obtain ⟨u, hu, rfl⟩ := mem_visited.mp ht
    obtain ⟨w, hne, hw, rfl⟩ := exists_chain_of_transGen hchain
    refine h ⟨u, w, hne, chain_append.mpr ⟨hu, hw⟩, ?_⟩
    rw [extend_append]
    exact heq.symm

/-! ## Paths that lead to one position

Without a limit for symlinks, what can be listed below a path is a matter of its position, except for the test of
`getContents`.
-/

theorem position_eq_some :
    position fs path = some q ↔ ∃ links, fs.locate path = some (q, links) := by
  unfold position
  cases fs.locate path with
  | none => simp
  | some pos => simp [Prod.ext_iff]

theorem names_congr (h : position fs t' = position fs t) : fs.names t' = fs.names t := by
  unfold position at h
  unfold names
  cases ht : fs.locate t with
  | none =>
    rw [ht] at h
    rw [map_eq_none_iff.mp h]
  | some pos =>
    rw [ht] at h
    obtain ⟨pos', hpos', heq⟩ := map_eq_some_iff.mp h
    rw [hpos']
    exact congrArg fs.contents heq

theorem isSymlinkFile_congr (h : position fs t' = position fs t) (x : Name) :
    fs.isSymlinkFile t' x = fs.isSymlinkFile t x := by
  unfold position at h
  unfold isSymlinkFile
  cases ht : fs.locate t with
  | none =>
    rw [ht] at h
    rw [map_eq_none_iff.mp h]
  | some pos =>
    rw [ht] at h
    obtain ⟨pos', hpos', heq⟩ := map_eq_some_iff.mp h
    rw [hpos']
    simp only [show pos'.1 = pos.1 from heq]

theorem position_append_congr (hmax : fs.maxLinks = none) (h : position fs t' = position fs t) (hx : x ∈ fs.names t) :
    position fs (append t' x) = position fs (append t x) := by
  obtain ⟨q, links, hq, -⟩ := mem_names.mp hx
  obtain ⟨links', hq'⟩ := position_eq_some.mp (h.trans (position_eq_some.mpr ⟨links, hq⟩))
  have hallows : ∀ n, fs.allows n = true := fun n => by rw [allows, hmax]; rfl
  rw [position, position, locate_append_of_mem hq hx,
    locate_append_of_mem hq' (names_congr h ▸ hx)]
  cases fs.node (q ++ [x]) with
  | none => rfl
  | some node =>
    cases node with
    | entry e => rfl
    | symlink target further =>
      simp only [hallows, if_true, Option.map_map]
      rfl

theorem statedNames_congr (hmax : fs.maxLinks = none) (h : position fs t' = position fs t) :
    statedNames fs t' = statedNames fs t := by
  have htake : ∀ l : List Name, (∀ x ∈ l, x ∈ fs.names t) →
      (l.takeWhile fun x => (fs.locate (append t' x)).isSome) = l.takeWhile fun x => (fs.locate (append t x)).isSome := by
    intro l hl
    induction l with
    | nil => rfl
    | cons x l ih =>
      have hx : (fs.locate (append t' x)).isSome = (fs.locate (append t x)).isSome := by
        have hpos := congrArg Option.isSome (position_append_congr hmax h (hl x mem_cons_self))
        rwa [position, position, isSome_map, isSome_map] at hpos
      rw [takeWhile_cons, takeWhile_cons, hx, ih fun y hy => hl y (mem_cons_of_mem x hy)]
  rw [statedNames, statedNames, names_congr h]
  exact htake _ fun x hx => hx

/-! ## Loops -/

/-- A real path, or one with a slash at the end, that leads to its position. -/
def IsReal (fs : LinkedFileSystem) (path : Path) (q : List Name) : Prop :=
  (path = text q ∨ path = text q ++ [slash]) ∧ position fs path = some q

/-- **From a real path no chain comes back**, nor to a directory above: a symlink to it would be left out. -/
theorem not_above_of_isReal (ht : IsReal fs t q) (hne : w ≠ []) (hchain : Chain fs filenameMatch [] t w)
    (hr : position fs (extend t w) = some r) : ¬ r <+: q := by
  induction w using List.reverseRecOn generalizing r with
  | nil => exact absurd rfl hne
  | append_singleton w x ih =>
    obtain ⟨hchain', ⟨hx, hlisted⟩, -⟩ := chain_append.mp hchain
    rw [extend_append] at hr
    obtain ⟨links, hlocate⟩ := position_eq_some.mp hr
    obtain ⟨q', links', hq', hcase⟩ := locate_child hx hlocate
    have hpos : position fs (extend t w) = some q' := position_eq_some.mpr ⟨links', hq'⟩
    intro habove
    rcases hcase with hentry | ⟨hlink, -⟩
    · cases hentry
      by_cases hw : w = []
      · -- one level down from the directory itself
        rw [hw] at hpos
        have heq : q' = q := Option.some.inj (hpos.symm.trans ht.2)
        have hlength := habove.length_le
        rw [heq, length_append, length_singleton] at hlength
        omega
      · exact ih hw hchain' hpos ((prefix_append q' [x]).trans habove)
    · -- the real path of a directory above is written at the start of all paths of the chain
      refine hlisted ?_
      rw [LeftOut, if_pos rfl]
      refine ⟨hlink, text r, ?_, ?_⟩
      · rw [realPath]
        exact map_eq_some_iff.mpr ⟨(r, links), hlocate, rfl⟩
      · have hstart : text q <+: t := by
          rcases ht.1 with h | h
          · rw [h]
          · rw [h]
            exact prefix_append _ _
        exact ((text_mono habove).trans hstart).trans (isPrefix_extend t w)

/-- A chain goes on after the path, or after a slash at its end. -/
theorem slash_of_extend (ht : t.head? = some slash) (hne : w ≠ []) (hchain : Chain fs filenameMatch filters t w) :
    ∃ rest, extend t w = t ++ rest ∧ (t.getLast? = some slash ∨ rest.head? = some slash) := by
  cases w with
  | nil => exact absurd rfl hne
  | cons x w =>
    obtain ⟨rest, hrest⟩ := isPrefix_extend (append t x) w
    have hx := proper_of_mem_names hchain.1.1
    have htne : t ≠ [] := by
      rintro rfl
      cases ht
    by_cases hslash : t.getLast? = some slash
    · obtain ⟨rest', hrest'⟩ := isPrefix_extend t (x :: w)
      exact ⟨rest', hrest'.symm, Or.inl hslash⟩
    · have happend : append t x = t ++ slash :: x := by
        rw [append, if_neg hslash, if_neg (not_or.mpr ⟨FileSystem.head?_ne_slash_of_proper hx, htne⟩)]
      refine ⟨slash :: x ++ rest, ?_, Or.inr rfl⟩
      show extend (append t x) w = _
      rw [← hrest, happend, append_assoc]

/-- Two texts that go on from one path the same way. -/
theorem head?_eq_of_prefixes {a b c : Path} (ha : t ++ a <+: c) (hb : t ++ b <+: c) (hane : a ≠ []) (hbne : b ≠ []) :
    a.head? = b.head? := by
  obtain ⟨a', ha⟩ := ha
  obtain ⟨b', hb⟩ := hb
  rw [append_assoc] at ha hb
  have heq : a ++ a' = b ++ b' := append_cancel_left (ha.trans hb.symm)
  rw [← List.head?_append_of_ne_nil a hane, heq, List.head?_append_of_ne_nil b hbne]

/-- A path with names below it. -/
theorem exists_locate_of_chain (hne : w ≠ []) (hchain : Chain fs filenameMatch filters t w) :
    ∃ q links, fs.locate t = some (q, links) := by
  cases w with
  | nil => exact absurd rfl hne
  | cons x w =>
    obtain ⟨q, links, hq, -⟩ := mem_names.mp hchain.1.1
    exact ⟨q, links, hq⟩

/-- A path that is continued to a real path. -/
theorem isReal_of_append_eq {rest : Path} (hr : (fs.node r).isSome = true) (ht : t ≠ []) (hrest : rest ≠ [])
    (hslash : t.getLast? = some slash ∨ rest.head? = some slash) (h : t ++ rest = text r) :
    ∃ q, IsReal fs t q := by
  obtain ⟨q, hq, htext⟩ := exists_text_of_append_eq (proper_of_mem_position hr) ht
    hrest hslash h
  refine ⟨q, htext, ?_⟩
  have hlength := congrArg List.length h
  have hpos := length_pos_iff.mpr hrest
  rw [length_append] at hlength
  have hne : q ≠ r := by
    rintro rfl
    rcases htext with ht | ht
    · rw [ht] at hlength
      omega
    · rw [ht, length_append] at hlength
      omega
  obtain ⟨e, he, hdirectory⟩ := entry_above hr hq hne
  rcases htext with ht | ht
  · rw [ht]
    exact position_eq_some.mpr ⟨0, locate_text he⟩
  · rw [ht]
    exact position_eq_some.mpr ⟨0, locate_text_slash
      (isDirectoryAt_iff.mpr ⟨e, he, hdirectory⟩)⟩

/-- **On the way around** no symlink has a real path that is written at the start of a path that goes further: the path
    where the way begins would be a real one. -/
theorem not_writtenAtStart_of_returns {v : List Name} (hchain : Chain fs filenameMatch [] t (u ++ x :: v))
    (hreturns : position fs (extend t (u ++ x :: v)) = position fs t) {links : Nat}
    (hlink : fs.isSymlinkFile (extend t u) x = true) (hr : fs.locate (append (extend t u) x) = some (r, links))
    (ht' : append (extend t u) x <+: t') : ¬ text r <+: t' := by
  intro hstart
  obtain ⟨hu, hx, -⟩ := chain_append.mp hchain
  -- the first time it was not
  have hnot : ¬ text r <+: extend t u := by
    intro hstart
    refine hx.2 ?_
    rw [LeftOut, if_pos rfl]
    refine ⟨hlink, text r, ?_, hstart⟩
    rw [realPath, hr]
    rfl
  obtain ⟨q, links', hq⟩ := exists_locate_of_chain (by simp) hchain
  have hhead := head?_of_locate hq
  have htne : t ≠ [] := by
    rintro rfl
    cases hhead
  -- so the real path goes on from the path where the way begins
  have hlonger : extend t u <+: text r := by
    have hpath := (isPrefix_append (extend t u) x).trans ht'
    exact (List.prefix_or_prefix_of_prefix hstart hpath).resolve_left hnot
  obtain ⟨rest, hrest⟩ := (isPrefix_extend t u).trans hlonger
  have hne : rest ≠ [] := by
    rintro rfl
    rw [append_nil] at hrest
    exact hnot (hrest ▸ isPrefix_extend t u)
  -- and it does so after a slash, as the path of the chain does
  have hslash : t.getLast? = some slash ∨ rest.head? = some slash := by
    have hchain₁ : Chain fs filenameMatch [] t (u ++ [x]) := chain_append.mpr ⟨hu, hx, trivial⟩
    obtain ⟨rest', hrest', hslash⟩ := slash_of_extend hhead (by simp) hchain₁
    refine hslash.imp_right fun hslash => ?_
    have hne' : rest' ≠ [] := by
      rintro rfl
      cases hslash
    rw [head?_eq_of_prefixes (hrest ▸ hstart) ?_ hne hne']
    · exact hslash
    · rw [← hrest', extend_append]
      exact ht'
  obtain ⟨⟨e, he⟩, -⟩ := entry_of_locate hr
  have hsome : (fs.node r).isSome = true := by simp [he]
  obtain ⟨s, hreal⟩ := isReal_of_append_eq hsome htne hne hslash hrest
  exact not_above_of_isReal hreal (by simp) hchain (hreturns.trans hreal.2) prefix_rfl

/-- **What was listed on the way around is listed the next time.** -/
theorem not_leftOut_of_returns (hmax : fs.maxLinks = none) {v : List Name}
    (hchain : Chain fs filenameMatch filters t (u ++ x :: v))
    (hreturns : position fs (extend t (u ++ x :: v)) = position fs t)
    (hpos : position fs t' = position fs (extend t u)) (ht' : append (extend t u) x <+: t') :
    x ∈ fs.names t' ∧ ¬ LeftOut fs filenameMatch filters t' x := by
  obtain ⟨-, hx, -⟩ := chain_append.mp hchain
  refine ⟨names_congr hpos ▸ hx.1, fun hleft => ?_⟩
  by_cases hfilters : filters = []
  · subst hfilters
    rw [LeftOut, if_pos rfl] at hleft
    obtain ⟨hlink, resolvedPath, hresolved, hstart⟩ := hleft
    obtain ⟨⟨r, links⟩, hr, rfl⟩ := map_eq_some_iff.mp hresolved
    have hposr := position_append_congr hmax hpos hx.1
    rw [position_eq_some.mpr ⟨links, hr⟩] at hposr
    obtain ⟨links', hr'⟩ := position_eq_some.mp hposr.symm
    rw [isSymlinkFile_congr hpos] at hlink
    exact not_writtenAtStart_of_returns hchain hreturns hlink hr' ht' hstart
  · refine hx.2 ?_
    rw [LeftOut, if_neg hfilters] at hleft ⊢
    rwa [statedNames_congr hmax hpos] at hleft

theorem chain_of_returns (hmax : fs.maxLinks = none) (hchain : Chain fs filenameMatch filters t w)
    (hreturns : position fs (extend t w) = position fs t) (hpos : position fs t' = position fs t)
    (ht' : extend t w <+: t') :
    Chain fs filenameMatch filters t' w ∧ position fs (extend t' w) = position fs t := by
  have hrest : ∀ v u, u ++ v = w → position fs (extend t' u) = position fs (extend t u) →
      Chain fs filenameMatch filters (extend t' u) v ∧ position fs (extend t' w) = position fs (extend t w) := by
    intro v
    induction v with
    | nil =>
      intro u hw hu
      rw [append_nil] at hw
      exact ⟨trivial, hw ▸ hu⟩
    | cons x v ih =>
      intro u hw hu
      subst hw
      have hwritten : append (extend t u) x <+: extend t' u := by
        have hpart : append (extend t u) x <+: extend t (u ++ x :: v) := by
          rw [extend_append]
          exact isPrefix_extend (append (extend t u) x) v
        exact (hpart.trans ht').trans (isPrefix_extend t' u)
      have hx := not_leftOut_of_returns hmax hchain hreturns hu hwritten
      have hnext : position fs (extend t' (u ++ [x])) = position fs (extend t (u ++ [x])) := by
        rw [extend_append, extend_append]
        exact position_append_congr hmax hu (names_congr hu ▸ hx.1)
      obtain ⟨hchain', hpos'⟩ := ih (u ++ [x]) (by simp) hnext
      rw [extend_append] at hchain'
      exact ⟨⟨hx, hchain'⟩, hpos'⟩
  obtain ⟨hchain', hpos'⟩ := hrest w [] rfl hpos
  exact ⟨hchain', hpos'.trans hreturns⟩

/-- A way around, taken several times. -/
def around (t : Path) (w : List Name) : Nat → Path
  | 0 => t
  | n + 1 => extend (around t w n) w

/-- **A loop without a limit for symlinks** is taken for ever. -/
theorem infinite_visited_of_loops (hmax : fs.maxLinks = none) (h : Loops fs filenameMatch filters path) :
    ¬ (visited fs filenameMatch filters path).Finite := by
  obtain ⟨u, w, hne, hchain, hreturns⟩ := h
  obtain ⟨hu, hw⟩ := chain_append.mp hchain
  rw [extend_append] at hreturns
  set t := extend path u with ht
  -- each time the chain is there again, and it comes back again
  have hagain : ∀ n, around t w n ∈ visited fs filenameMatch filters path ∧
      Chain fs filenameMatch filters (around t w n) w ∧ position fs (around t w (n + 1)) = position fs t ∧
      extend t w <+: around t w (n + 1) := by
    intro n
    induction n with
    | zero => exact ⟨mem_visited.mpr ⟨u, hu, ht⟩, hw, hreturns, prefix_rfl⟩
    | succ n ih =>
      obtain ⟨hvisited, hchain', hpos, hwritten⟩ := ih
      obtain ⟨hchain₁, hpos₁⟩ := chain_of_returns hmax hw hreturns hpos hwritten
      exact ⟨hvisited.trans (mem_visited.mpr ⟨w, hchain', rfl⟩), hchain₁, hpos₁,
        hwritten.trans (isPrefix_extend _ w)⟩
  have hlonger : StrictMono fun n => (around t w n).length :=
    strictMono_nat_of_lt_succ fun n => length_lt_extend hne (hagain n).2.1
  have hinjective : Function.Injective (around t w) := fun m n heq => hlonger.injective (congrArg List.length heq)
  intro hfinite
  refine Set.infinite_range_of_injective hinjective (hfinite.subset ?_)
  rintro _ ⟨n, rfl⟩
  exact (hagain n).1

/-! ## The listing and the recursion -/

/-- **Directory listings and symlinks.** The listing of a directory is right and the recursion of tree signatures from
    it, with or without exclusion patterns, ends, exactly when the test for symlinks agrees with the directories above
    it, and there is a limit for the symlinks in a path or no listed names lead from a directory back to it. -/
theorem listing_recursion_iff (fs : LinkedFileSystem) (filenameMatch : Name → Name → Bool) (filters : List Name)
    (path : Path) :
    ListsEntries fs path ∧ (visited fs filenameMatch filters path).Finite ↔
      TargetsAgree fs path ∧ (fs.maxLinks = none → ¬ Loops fs filenameMatch filters path) := by
  refine and_congr listsEntries_iff ⟨fun hfinite hmax hloops => ?_, fun h => ?_⟩
  · exact infinite_visited_of_loops hmax hloops hfinite
  · cases hmax : fs.maxLinks with
    | none => exact finite_visited_of_not_loops (h hmax)
    | some maxLinks => exact finite_visited_of_maxLinks hmax path

/-! Two file systems: one with the directories `/a/b` and `/a/bc` and a symlink `/a/bc/l` to `/a/b`, and one with the
directory `/r` and the symlinks `/r/u` and `/l` to it. -/

def directory : FileSystem.Entry := ⟨{ inode := 1, mode := 0x41ed }, true, rfl, fun _ => rfl⟩

def siblings : LinkedFileSystem :=
  (LinkedFileSystem.ofFileSystem
    (.ofEntries [([], directory), ([[97]], directory), ([[97], [98]], directory),
      ([[97], [98, 99]], directory)] [] 2 rfl) (some 40)).withSymlink [[97], [98, 99]] [108]
    (some [[97], [98]]) 0 rfl (by decide) rfl fun r hr => by
      cases hr
      exact ⟨directory, rfl⟩

def selfLinked : LinkedFileSystem :=
  (LinkedFileSystem.ofFileSystem (.ofEntries [([], directory), ([[114]], directory)] [] 1 rfl)
    none).withSymlink [[114]] [117] (some [[114]]) 0 rfl (by decide) rfl fun r hr => by
      cases hr
      exact ⟨directory, rfl⟩

def endless : LinkedFileSystem :=
  selfLinked.withSymlink [] [108] (some [[114]]) 0 rfl (by decide) rfl fun r hr => by
    cases hr
    exact ⟨directory, rfl⟩

/-- **A symlink to a sibling is left out**, and there is no end to the recursion with a pattern, nor without one from a
    path that goes through a symlink. -/
theorem listing_recursion_fail :
    ¬ ListsEntries siblings [47, 97, 47, 98, 99] ∧
      ¬ (visited endless (fun pattern filename => decide (pattern = filename)) [[120]] [47, 114]).Finite ∧
        ¬ (visited endless (fun pattern filename => decide (pattern = filename)) [] [47, 108]).Finite := by
  refine ⟨fun hlists => ?_, ?_, ?_⟩
  · have hagree := listsEntries_iff.mp hlists [108] [[97], [98, 99]] 0 [[97], [98]] 1 rfl (by decide) (by decide)
    exact absurd (hagree.mp (by decide)) (by decide)
  · -- the pattern says nothing of the symlink
    refine infinite_visited_of_loops rfl ⟨[], [[117]], by simp, ⟨⟨by decide, ?_⟩, trivial⟩, by decide⟩
    rw [LeftOut, if_neg (by simp)]
    rintro (⟨pattern, hpattern, hmatch⟩ | hstated)
    · rw [mem_singleton.mp hpattern] at hmatch
      exact absurd hmatch (by decide)
    · exact hstated (by decide)
  · -- the real path does not start like a path that goes through another symlink
    refine infinite_visited_of_loops rfl ⟨[], [[117]], by simp, ⟨⟨by decide, ?_⟩, trivial⟩, by decide⟩
    rw [LeftOut, if_pos rfl]
    rintro ⟨-, resolvedPath, hresolved, hstart⟩
    have hreal : endless.realPath (append [47, 108] [117]) = some [47, 114] := by decide
    rw [hreal] at hresolved
    cases hresolved
    exact absurd hstart (by decide)

end DirectoryLinks

end Builra
