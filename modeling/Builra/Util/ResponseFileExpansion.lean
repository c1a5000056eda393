import Builra.Util.ResponseFiles
import Mathlib.Data.Finset.Card

namespace Builra.ResponseFiles

open List Path

open Character

/-!
# `Util.ResponseFileExpansion` — expansions of response files that are read in sequence

`Replaces` says what an expansion is for: the files in progress are those around the reference. The code's set of files
holds these and the ones that were left behind, the files that a reference with another spelling than the normalized one
has referred to.
-/

/-- The contents of a file, whichever way its path is spelled. -/
def read (files : List (List UInt8 × List Character)) (path : List UInt8) : Option (List Character) :=
  files.lookup (Path.normalize path)

variable {u : Unicode} {files : List (List UInt8 × List Character)} {basePath : List UInt8}

/-- The error for a file that is expanded again while it is being expanded. -/
def Recursive {α : Type} (r : Except ExpansionError α) : Prop := ∃ path, r = .error (.recursion path)

theorem not_recursive_ok {α : Type} (a : α) : ¬ Recursive (.ok a : Except ExpansionError α) := by
  rintro ⟨path, h⟩
  cases h

theorem recursive_map_iff {α β : Type} (f : α → β) (r : Except ExpansionError α) :
    Recursive (r.map f) ↔ Recursive r := by
  cases r with
  | ok a => exact iff_of_false (not_recursive_ok _) (not_recursive_ok _)
  | error e =>
    constructor
    · rintro ⟨path, h⟩
      cases h
      exact ⟨path, rfl⟩
    · rintro ⟨path, h⟩
      cases h
      exact ⟨path, rfl⟩

/-! ## What an expansion is for -/

variable (u files basePath) in
/-- With the files `stack` in progress, the arguments come to these references, one after the other, and to this
outcome: the arguments with each reference replaced by the replaced tokens of its file, or the first error. -/
inductive Replaces : Finset (List UInt8) → List (List Character) → List (List UInt8) →
    Except ExpansionError (List (List Character)) → Prop where
  | nil {stack} : Replaces stack [] [] (.ok [])
  | argument {stack arg args references outcome}
      (hreference : isReference arg = false) (hrest : Replaces stack args references outcome) :
      Replaces stack (arg :: args) references (outcome.map (arg :: ·))
  | again {stack arg args}
      (hreference : isReference arg = true) (hstack : Path.normalize (responseFile u basePath arg) ∈ stack) :
      Replaces stack (arg :: args) [responseFile u basePath arg] (.error (.recursion (responseFile u basePath arg)))
  | unreadable {stack arg args}
      (hreference : isReference arg = true) (hstack : Path.normalize (responseFile u basePath arg) ∉ stack)
      (hread : read files (responseFile u basePath arg) = none) :
      Replaces stack (arg :: args) [responseFile u basePath arg] (.error (.unreadable (responseFile u basePath arg)))
  | failed {stack arg args contents references e}
      (hreference : isReference arg = true) (hstack : Path.normalize (responseFile u basePath arg) ∉ stack)
      (hread : read files (responseFile u basePath arg) = some contents)
      (hnested : Replaces (insert (Path.normalize (responseFile u basePath arg)) stack) (tokenizeResponseFile contents)
        references (.error e)) :
      Replaces stack (arg :: args) (responseFile u basePath arg :: references) (.error e)
  | file {stack arg args lines contents references references' outcome}
      (hreference : isReference arg = true) (hstack : Path.normalize (responseFile u basePath arg) ∉ stack)
      (hread : read files (responseFile u basePath arg) = some contents)
      (hnested : Replaces (insert (Path.normalize (responseFile u basePath arg)) stack) (tokenizeResponseFile contents)
        references (.ok lines))
      (hrest : Replaces stack args references' outcome) :
      Replaces stack (arg :: args) (responseFile u basePath arg :: references ++ references') (outcome.map (lines ++ ·))

section

variable {stack : Finset (List UInt8)} {args : List (List Character)} {references : List (List UInt8)}
  {outcome : Except ExpansionError (List (List Character))}

/-- There are fewer files left below a file. -/
theorem card_sdiff_insert_lt {path : List UInt8} {contents : List Character} (hread : read files path = some contents)
    (hstack : Path.normalize path ∉ stack) :
    ((files.map Prod.fst).toFinset \ insert (Path.normalize path) stack).card <
      ((files.map Prod.fst).toFinset \ stack).card := by
  have hmem : normalize path ∈ (files.map Prod.fst).toFinset \ stack := by
    rw [Finset.mem_sdiff, mem_toFinset]
    refine ⟨?_, hstack⟩
    obtain ⟨before, after, hfiles, -⟩ := lookup_eq_some_iff.mp hread
    rw [hfiles, map_append, map_cons]
    exact mem_append_right _ mem_cons_self
  rw [Finset.sdiff_insert]
  exact Finset.card_erase_lt_of_mem hmem

/-- Whatever is in progress, the arguments come to some outcome. -/
theorem exists_replaces (stack : Finset (List UInt8)) (args : List (List Character)) :
    ∃ references outcome, Replaces u files basePath stack args references outcome := by
  induction hn : ((files.map Prod.fst).toFinset \ stack).card using Nat.strong_induction_on generalizing stack args with
  | _ n ih =>
    induction args with
    | nil => exact ⟨_, _, .nil⟩
    | cons arg args ihargs =>
      obtain ⟨references, outcome, hrest⟩ := ihargs
      cases hreference : isReference arg with
      | false => exact ⟨_, _, .argument hreference hrest⟩
      | true =>
        by_cases hstack : normalize (responseFile u basePath arg) ∈ stack
        · exact ⟨_, _, .again hreference hstack⟩
        cases hread : read files (responseFile u basePath arg) with
        | none => exact ⟨_, _, .unreadable hreference hstack hread⟩
        | some contents =>
          have hlt := card_sdiff_insert_lt hread hstack
          rw [hn] at hlt
          obtain ⟨nested, r, hnested⟩ := ih _ hlt (insert (normalize (responseFile u basePath arg)) stack)
            (tokenizeResponseFile contents) rfl
          cases r with
          | error e => exact ⟨_, _, .failed hreference hstack hread hnested⟩
          | ok lines => exact ⟨_, _, .file hreference hstack hread hnested hrest⟩

/-- Unless a file is expanded again, the references are to files that are not in progress. -/
theorem Replaces.notMem (h : Replaces u files basePath stack args references outcome) (hrecursive : ¬ Recursive outcome) :
    ∀ path ∈ references, Path.normalize path ∉ stack := by
  induction h with
  | nil => simp
  | argument _ _ ih =>
    rw [recursive_map_iff] at hrecursive
    exact ih hrecursive
  | again => exact absurd ⟨_, rfl⟩ hrecursive
  | unreadable _ hstack _ =>
    intro path hpath
    rwa [mem_singleton.mp hpath]
  | failed _ hstack _ _ ih =>
    rw [forall_mem_cons]
    refine ⟨hstack, fun path hpath hmem => ?_⟩
    exact ih (fun ⟨p, h⟩ => hrecursive (by cases h; exact ⟨p, rfl⟩)) path hpath (Finset.mem_insert_of_mem hmem)
  | file _ hstack _ _ _ ihnested ihrest =>
    rw [recursive_map_iff] at hrecursive
    rw [forall_mem_append, forall_mem_cons]
    refine ⟨⟨hstack, fun path hpath hmem => ?_⟩, ihrest hrecursive⟩
    exact ihnested (not_recursive_ok _) path hpath (Finset.mem_insert_of_mem hmem)

/-- Below a file that is not expanded again, no reference is to the file. -/
theorem Replaces.normalize_ne {path : List UInt8}
    (h : Replaces u files basePath (insert (Path.normalize path) stack) args references outcome)
    (hrecursive : ¬ Recursive outcome) : ∀ p ∈ references, Path.normalize path ≠ Path.normalize p := by
  intro p hp heq
  apply h.notMem hrecursive p hp
  rw [heq]
  exact Finset.mem_insert_self _ _

end

/-! ## What stays behind -/

/-- The files that stay in the set when the references have been expanded. -/
def leftBehind (references : List (List UInt8)) : Finset (List UInt8) :=
  ((references.filter (fun path => Path.normalize path ≠ path)).map Path.normalize).toFinset

theorem mem_leftBehind {references : List (List UInt8)} {key : List UInt8} :
    key ∈ leftBehind references ↔ ∃ path ∈ references, Path.normalize path ≠ path ∧ Path.normalize path = key := by
  unfold leftBehind
  rw [mem_toFinset, mem_map]
  simp only [mem_filter, decide_eq_true_eq, and_assoc]

/-- A file that is referred to again was referred to by its normalized path. -/
def Removed (path path' : List UInt8) : Prop := Path.normalize path = Path.normalize path' → Path.normalize path = path

/-- No reference is to a file in the set, nor to one that an earlier reference has left behind. -/
structure Clean (visited : Finset (List UInt8)) (references : List (List UInt8)) : Prop where
  notMem : ∀ path ∈ references, Path.normalize path ∉ visited
  removed : references.Pairwise Removed

section

variable {visited : Finset (List UInt8)} {references references' : List (List UInt8)} {path : List UInt8}

theorem clean_nil : Clean visited [] := ⟨by simp, List.Pairwise.nil⟩

theorem clean_append_iff :
    Clean visited (references ++ references') ↔
      Clean visited references ∧ Clean (visited ∪ leftBehind references) references' := by
  have hkeys : (∀ path ∈ references, ∀ path' ∈ references', Removed path path') ↔
      ∀ path' ∈ references', normalize path' ∉ leftBehind references := by
    constructor
    · intro h path' hpath' hmem
      obtain ⟨path, hpath, hne, heq⟩ := mem_leftBehind.mp hmem
      exact hne (h path hpath path' hpath' heq)
    · intro h path hpath path' hpath' heq
      by_contra hne
      exact h path' hpath' (mem_leftBehind.mpr ⟨path, hpath, hne, heq⟩)
  constructor
  · rintro ⟨hnotMem, hremoved⟩
    rw [forall_mem_append] at hnotMem
    obtain ⟨hremoved, hremoved', hboth⟩ := pairwise_append.mp hremoved
    refine ⟨⟨hnotMem.1, hremoved⟩, ⟨fun path hpath => ?_, hremoved'⟩⟩
    rw [Finset.mem_union, not_or]
    exact ⟨hnotMem.2 path hpath, hkeys.mp hboth path hpath⟩
  · rintro ⟨⟨hnotMem, hremoved⟩, ⟨hnotMem', hremoved'⟩⟩
    refine ⟨?_, pairwise_append.mpr ⟨hremoved, hremoved', ?_⟩⟩
    · rw [forall_mem_append]
      exact ⟨hnotMem, fun path hpath hmem => hnotMem' path hpath (Finset.mem_union_left _ hmem)⟩
    · exact hkeys.mpr (fun path hpath hmem => hnotMem' path hpath (Finset.mem_union_right _ hmem))

theorem clean_cons_iff (h : ∀ p ∈ references, Path.normalize path ≠ Path.normalize p) :
    Clean visited (path :: references) ↔
      Path.normalize path ∉ visited ∧ Clean (insert (Path.normalize path) visited) references := by
  constructor
  · rintro ⟨hnotMem, hremoved⟩
    obtain ⟨hpath, hnotMem⟩ := forall_mem_cons.mp hnotMem
    refine ⟨hpath, ⟨fun p hp => ?_, (pairwise_cons.mp hremoved).2⟩⟩
    rw [Finset.mem_insert, not_or]
    exact ⟨(h p hp).symm, hnotMem p hp⟩
  · rintro ⟨hpath, hnotMem, hremoved⟩
    refine ⟨?_, pairwise_cons.mpr ⟨fun p hp heq => absurd heq (h p hp), hremoved⟩⟩
    rw [forall_mem_cons]
    exact ⟨hpath, fun p hp hmem => hnotMem p hp (Finset.mem_insert_of_mem hmem)⟩

/-- The keys of the set: plain paths that are normalized. -/
def Normal (S : Set (List UInt8)) (visited : Finset (List UInt8)) : Prop :=
  ∀ key ∈ visited, key ∈ S ∧ Path.normalize key = key

variable {S : Set (List UInt8)}

/-- Only a normalized path is removed. -/
theorem erase_insert_leftBehind (hnormal : Normal S visited)
    (hpath : Path.normalize path ∉ visited) (h : ∀ p ∈ references, Path.normalize path ≠ Path.normalize p) :
    (insert (Path.normalize path) visited ∪ leftBehind references).erase path =
      visited ∪ leftBehind (path :: references) := by
  ext key
  simp only [Finset.mem_erase, Finset.mem_union, Finset.mem_insert, mem_leftBehind, exists_mem_cons_iff]
  by_cases hspelled : normalize path = path
  · constructor
    · rintro ⟨hne, (rfl | hmem) | hleft⟩
      · exact absurd hspelled hne
      · exact .inl hmem
      · exact .inr (.inr hleft)
    · rintro (hmem | ⟨hne, -⟩ | ⟨p, hp, hne, rfl⟩)
      · exact ⟨fun heq => hpath (by rwa [hspelled, ← heq]), .inl (.inr hmem)⟩
      · exact absurd hspelled hne
      · exact ⟨fun heq => h p hp (hspelled.trans heq.symm), .inr ⟨p, hp, hne, rfl⟩⟩
  · -- no key is spelled like the path
    have hkey : ∀ key, normalize key = key → key ≠ path := by
      rintro key hkey rfl
      exact hspelled hkey
    constructor
    · rintro ⟨-, (rfl | hmem) | hleft⟩
      · exact .inr (.inl ⟨hspelled, rfl⟩)
      · exact .inl hmem
      · exact .inr (.inr hleft)
    · rintro (hmem | ⟨-, rfl⟩ | ⟨p, hp, hne, rfl⟩)
      · exact ⟨hkey key (hnormal key hmem).2, .inl (.inr hmem)⟩
      · exact ⟨hkey _ (normalize_normalize path), .inl (.inl rfl)⟩
      · exact ⟨hkey _ (normalize_normalize p), .inr ⟨p, hp, hne, rfl⟩⟩

theorem leftBehind_append (references references' : List (List UInt8)) :
    leftBehind (references ++ references') = leftBehind references ∪ leftBehind references' := by
  unfold leftBehind
  rw [filter_append, map_append, toFinset_append]

theorem Normal.insert (hu : u.Plain S) (hpath : path ∈ S) (hnormal : Normal S visited) :
    Normal S (insert (Path.normalize path) visited) := by
  unfold Normal
  rw [Finset.forall_mem_insert]
  exact ⟨⟨(hu.normalize_spec hpath).2, normalize_normalize path⟩, hnormal⟩

theorem Normal.union (hu : u.Plain S) (h : ∀ path ∈ references, path ∈ S) (hnormal : Normal S visited) :
    Normal S (visited ∪ leftBehind references) := by
  intro key hkey
  rcases Finset.mem_union.mp hkey with hkey | hkey
  · exact hnormal key hkey
  · obtain ⟨path, hpath, -, rfl⟩ := mem_leftBehind.mp hkey
    exact ⟨(hu.normalize_spec (h path hpath)).2, normalize_normalize path⟩

theorem Normal.isVisited_iff (hu : u.Plain S) (hpath : path ∈ S) (hnormal : Normal S visited) :
    IsVisited u visited path ↔ Path.normalize path ∈ visited := by
  obtain ⟨hnorm, hmem⟩ := hu.normalize_spec hpath
  unfold IsVisited
  rw [hnorm]
  constructor
  · rintro ⟨key, hkey, hsame⟩
    rw [hu.same_eq _ (hnormal key hkey).1 _ hmem, decide_eq_true_eq] at hsame
    rwa [← hsame]
  · exact fun h => ⟨_, h, u.same_self _⟩

theorem Normal.remove_eq (hu : u.Plain S) (hpath : path ∈ S) (hnormal : Normal S visited) :
    remove u visited path = visited.erase path := by
  ext key
  rw [remove, Finset.mem_filter, Finset.mem_erase, and_comm, and_congr_left_iff]
  intro hkey
  rw [hu.same_eq _ (hnormal key hkey).1 _ hpath, decide_eq_true_eq]

end

/-! ## The code's expansion -/

variable (u files basePath) in
/-- The expansion of the arguments ends, with the result and the set. -/
def EndsWith (args : List (List Character)) (visited : Finset (List UInt8))
    (r : Except ExpansionError (List (List Character) × Finset (List UInt8))) : Prop :=
  ∃ fuel, expandNested u (read files) basePath fuel args visited = some r

section

variable {visited visited' : Finset (List UInt8)} {arg : List Character} {args lines : List (List Character)}
  {contents : List Character} {r : Except ExpansionError (List (List Character) × Finset (List UInt8))}
  {e : ExpansionError}

theorem bind_eq_of_eq {α β : Type} {x : Expansion α} {x' : Except ExpansionError α} (f : α → β) (h : x = some x') :
    (do let a ← x
        return f a : Expansion β) = some (x'.map f) := by
  subst h
  cases x' with
  | ok a => rfl
  | error e => rfl

theorem endsWith_nil : EndsWith u files basePath [] visited (.ok ([], visited)) := ⟨1, rfl⟩

theorem endsWith_argument (hreference : isReference arg = false) (hrest : EndsWith u files basePath args visited r) :
    EndsWith u files basePath (arg :: args) visited (r.map (fun r => (arg :: r.1, r.2))) := by
  obtain ⟨fuel, hrest⟩ := hrest
  refine ⟨fuel + 1, ?_⟩
  show expandArgs u (read files) basePath (expandNested u (read files) basePath fuel) (arg :: args) visited = _
  rw [expandArgs_argument hreference]
  exact bind_eq_of_eq _ (expandNested_mono (Nat.le_succ fuel) hrest)

section Plain

variable {S : Set (List UInt8)} (hu : u.Plain S) (hnormal : Normal S visited) (hpath : responseFile u basePath arg ∈ S)
  (hreference : isReference arg = true)

include hu hnormal hpath hreference

theorem endsWith_recursion (hvisited : Path.normalize (responseFile u basePath arg) ∈ visited) :
    EndsWith u files basePath (arg :: args) visited (.error (.recursion (responseFile u basePath arg))) :=
  ⟨1, expandArgs_recursion hreference ((hnormal.isVisited_iff hu hpath).mpr hvisited)⟩

variable (hvisited : Path.normalize (responseFile u basePath arg) ∉ visited)

include hvisited

theorem endsWith_unreadable (hread : read files (responseFile u basePath arg) = none) :
    EndsWith u files basePath (arg :: args) visited (.error (.unreadable (responseFile u basePath arg))) :=
  ⟨1, expandArgs_unreadable hreference (mt (hnormal.isVisited_iff hu hpath).mp hvisited) hread⟩

variable (hread : read files (responseFile u basePath arg) = some contents)

include hread

theorem endsWith_failed (hnested : EndsWith u files basePath (tokenizeResponseFile contents)
      (insert (Path.normalize (responseFile u basePath arg)) visited) (.error e)) :
    EndsWith u files basePath (arg :: args) visited (.error e) := by
  obtain ⟨fuel, hnested⟩ := hnested
  refine ⟨fuel + 1, ?_⟩
  show expandArgs u (read files) basePath (expandNested u (read files) basePath fuel) (arg :: args) visited = _
  rw [expandArgs_file hreference (mt (hnormal.isVisited_iff hu hpath).mp hvisited) hread, (hu.normalize_spec hpath).1,
    hnested]
  rfl

theorem endsWith_file (hnormal' : Normal S visited') (hnested : EndsWith u files basePath (tokenizeResponseFile contents)
      (insert (Path.normalize (responseFile u basePath arg)) visited) (.ok (lines, visited')))
    (hrest : EndsWith u files basePath args (visited'.erase (responseFile u basePath arg)) r) :
    EndsWith u files basePath (arg :: args) visited (r.map (fun r => (lines ++ r.1, r.2))) := by
  obtain ⟨fuel, hnested⟩ := hnested
  obtain ⟨fuel', hrest⟩ := hrest
  refine ⟨max fuel fuel' + 1, ?_⟩
  show expandArgs u (read files) basePath (expandNested u (read files) basePath (max fuel fuel')) (arg :: args) visited = _
  rw [expandArgs_file hreference (mt (hnormal.isVisited_iff hu hpath).mp hvisited) hread, (hu.normalize_spec hpath).1,
    expandNested_mono (Nat.le_max_left fuel fuel') hnested]
  show (do let r ← expandArgs u (read files) basePath _ args (remove u visited' (responseFile u basePath arg))
           return (lines ++ r.1, r.2) : Expansion _) = _
  rw [hnormal'.remove_eq hu hpath]
  exact bind_eq_of_eq _ (expandNested_mono ((Nat.le_max_right fuel fuel').trans (Nat.le_succ _)) hrest)

end Plain

end

/-- The code follows the expansion as long as it is clean, and ends with a recursion error otherwise. -/
def Follows (visited : Finset (List UInt8)) (references : List (List UInt8))
    (outcome : Except ExpansionError (List (List Character)))
    (r : Except ExpansionError (List (List Character) × Finset (List UInt8))) : Prop :=
  (Clean visited references ∧ r = outcome.map (fun lines => (lines, visited ∪ leftBehind references))) ∨
    ((Recursive outcome ∨ ¬ Clean visited references) ∧ Recursive r)

theorem Replaces.exists_endsWith {stack visited : Finset (List UInt8)} {args : List (List Character)}
    {references : List (List UInt8)} {outcome : Except ExpansionError (List (List Character))}
    {S : Set (List UInt8)} (hu : u.Plain S) (h : Replaces u files basePath stack args references outcome)
    (hS : ∀ path ∈ references, path ∈ S) (hstack : stack ⊆ visited) (hnormal : Normal S visited) :
    ∃ r, EndsWith u files basePath args visited r ∧ Follows visited references outcome r := by
  induction h generalizing visited with
  | nil =>
    refine ⟨_, endsWith_nil, .inl ⟨clean_nil, ?_⟩⟩
    show _ = Except.ok ([], visited ∪ ∅)
    rw [Finset.union_empty]
  | @argument _ arg _ references outcome hreference _ ih =>
    obtain ⟨r, hends, hfollows⟩ := ih hS hstack hnormal
    refine ⟨_, endsWith_argument hreference hends, ?_⟩
    unfold Follows
    rw [recursive_map_iff, recursive_map_iff]
    rcases hfollows with ⟨hclean, rfl⟩ | hrecursive
    · refine .inl ⟨hclean, ?_⟩
      cases outcome with
      | ok lines => rfl
      | error e => rfl
    · exact .inr hrecursive
  | again hreference hmem =>
    have hpath := hS _ (mem_singleton_self _)
    exact ⟨_, endsWith_recursion hu hnormal hpath hreference (hstack hmem), .inr ⟨.inl ⟨_, rfl⟩, ⟨_, rfl⟩⟩⟩
  | @unreadable _ arg _ hreference _ hread =>
    have hpath := hS _ (mem_singleton_self _)
    by_cases hvisited : normalize (responseFile u basePath arg) ∈ visited
    · refine ⟨_, endsWith_recursion hu hnormal hpath hreference hvisited, .inr ⟨.inr (fun hclean => ?_), ⟨_, rfl⟩⟩⟩
      exact hclean.notMem _ (mem_singleton_self _) hvisited
    · refine ⟨_, endsWith_unreadable hu hnormal hpath hreference hvisited hread, .inl ⟨?_, rfl⟩⟩
      exact (clean_cons_iff (by simp)).mpr ⟨hvisited, clean_nil⟩
  | @failed _ arg _ _ references e hreference hnew hread hnested ih =>
    obtain ⟨hpath, hS⟩ := forall_mem_cons.mp hS
    by_cases hvisited : normalize (responseFile u basePath arg) ∈ visited
    · refine ⟨_, endsWith_recursion hu hnormal hpath hreference hvisited, .inr ⟨.inr (fun hclean => ?_), ⟨_, rfl⟩⟩⟩
      exact hclean.notMem _ mem_cons_self hvisited
    obtain ⟨r, hends, hfollows⟩ := ih hS (Finset.insert_subset_insert _ hstack) (hnormal.insert hu hpath)
    by_cases hrecursive : Recursive (Except.error e : Except ExpansionError (List (List Character)))
    · obtain ⟨path, hpath⟩ := hrecursive
      cases hpath
      rcases hfollows with ⟨-, rfl⟩ | ⟨-, path', rfl⟩
      · exact ⟨_, endsWith_failed hu hnormal hpath hreference hvisited hread hends, .inr ⟨.inl ⟨path, rfl⟩, ⟨path, rfl⟩⟩⟩
      · exact ⟨_, endsWith_failed hu hnormal hpath hreference hvisited hread hends, .inr ⟨.inl ⟨path, rfl⟩, ⟨path', rfl⟩⟩⟩
    have hclean : Clean visited (responseFile u basePath arg :: references) ↔ _ :=
      clean_cons_iff (hnested.normalize_ne hrecursive)
    rcases hfollows with ⟨hnestedClean, rfl⟩ | ⟨hor, path', rfl⟩
    · exact ⟨_, endsWith_failed hu hnormal hpath hreference hvisited hread hends, .inl ⟨hclean.mpr ⟨hvisited, hnestedClean⟩, rfl⟩⟩
    · refine ⟨_, endsWith_failed hu hnormal hpath hreference hvisited hread hends, .inr ⟨.inr (fun hall => ?_), ⟨path', rfl⟩⟩⟩
      exact hor.resolve_left hrecursive (hclean.mp hall).2
  | @file _ arg _ lines _ references references' outcome hreference hnew hread hnested _ ihnested ihrest =>
    obtain ⟨hall, hS'⟩ := forall_mem_append.mp hS
    obtain ⟨hpath, hS⟩ := forall_mem_cons.mp hall
    by_cases hvisited : normalize (responseFile u basePath arg) ∈ visited
    · refine ⟨_, endsWith_recursion hu hnormal hpath hreference hvisited, .inr ⟨.inr (fun hclean => ?_), ⟨_, rfl⟩⟩⟩
      exact hclean.notMem _ mem_cons_self hvisited
    have hne := hnested.normalize_ne (not_recursive_ok lines)
    have hclean : Clean visited (responseFile u basePath arg :: references) ↔ _ := clean_cons_iff hne
    obtain ⟨r, hends, hfollows⟩ := ihnested hS (Finset.insert_subset_insert _ hstack) (hnormal.insert hu hpath)
    rcases hfollows with ⟨hnestedClean, rfl⟩ | ⟨hor, path', rfl⟩
    · have hunion := (hnormal.insert hu hpath).union hu hS
      obtain ⟨r, hends', hfollows'⟩ := ihrest hS' (Finset.Subset.trans hstack Finset.subset_union_left)
        (hnormal.union hu hall)
      rw [← erase_insert_leftBehind hnormal hvisited hne] at hends'
      refine ⟨_, endsWith_file hu hnormal hpath hreference hvisited hread hunion hends hends', ?_⟩
      unfold Follows
      rw [clean_append_iff, recursive_map_iff, recursive_map_iff, hclean, leftBehind_append, ← Finset.union_assoc]
      rcases hfollows' with ⟨hrestClean, rfl⟩ | ⟨hor, hrecursive⟩
      · refine .inl ⟨⟨⟨hvisited, hnestedClean⟩, hrestClean⟩, ?_⟩
        cases outcome with
        | ok lines => rfl
        | error e => rfl
      · refine .inr ⟨?_, hrecursive⟩
        rcases hor with hor | hor
        · exact .inl hor
        · exact .inr (fun hall => hor hall.2)
    · refine ⟨_, endsWith_failed hu hnormal hpath hreference hvisited hread hends, .inr ⟨.inr (fun hall => ?_), ⟨path', rfl⟩⟩⟩
      exact hor.resolve_left (not_recursive_ok lines) (hclean.mp (clean_append_iff.mp hall).1).2

/-! ## The result -/

/-- The result is a recursion error exactly if a file is expanded again while it is being expanded, and the outcome if
there is no error. -/
def Meets (outcome result : Except ExpansionError (List (List Character))) : Prop :=
  (Recursive result ↔ Recursive outcome) ∧ ∀ lines, outcome = .ok lines → result = .ok lines

/-- Every expansion with plain paths ends. It is as it should be exactly if a file is expanded again while it is being
expanded, or each file that is referred to again was referred to by its normalized path before. -/
theorem expandResponseFiles_iff (u : Unicode) (files : List (List UInt8 × List Character)) (basePath : List UInt8)
    (args : List (List Character)) :
    (∃ references outcome, Replaces u files basePath ∅ args references outcome) ∧
      ∀ S references outcome, u.Plain S → Replaces u files basePath ∅ args references outcome →
        (∀ path ∈ references, path ∈ S) →
        ∃ result, Expands u (read files) basePath args result ∧
          (∀ result', Expands u (read files) basePath args result' → result' = result) ∧
          (Meets outcome result ↔ Recursive outcome ∨ references.Pairwise Removed) := by
  refine ⟨exists_replaces ∅ args, fun S references outcome hu hreplaces hS => ?_⟩
  obtain ⟨r, ⟨fuel, hfuel⟩, hfollows⟩ :=
    hreplaces.exists_endsWith hu hS (Finset.Subset.refl ∅) (fun _ h => absurd h (Finset.notMem_empty _))
  have hexpands : Expands u (read files) basePath args (r.map Prod.fst) :=
    ⟨fuel, congrArg (Option.map (Except.map Prod.fst)) hfuel⟩
  refine ⟨_, hexpands, fun _ h => h.unique hexpands, ?_⟩
  rcases hfollows with ⟨hclean, rfl⟩ | ⟨hor, hrecursive⟩
  · have hsame : (outcome.map (fun lines => (lines, ∅ ∪ leftBehind references))).map Prod.fst = outcome := by
      cases outcome with
      | ok lines => rfl
      | error e => rfl
    rw [hsame]
    exact iff_of_true ⟨Iff.rfl, fun _ h => h⟩ (.inr hclean.removed)
  · rw [← recursive_map_iff Prod.fst] at hrecursive
    constructor
    · exact fun hmeets => .inl (hmeets.1.mp hrecursive)
    · intro h
      have houtcome : Recursive outcome := by
        rcases h with h | h
        · exact h
        · exact hor.resolve_right (fun hclean => hclean ⟨by simp, h⟩)
      refine ⟨iff_of_true hrecursive houtcome, ?_⟩
      rintro lines rfl
      exact absurd houtcome (not_recursive_ok lines)

/-- The file `/a` with `x`, referred to twice. -/
theorem replaces_twice {arg : List Character} (hreference : isReference arg = true)
    (hnormalize : Path.normalize (responseFile .ascii [pathSeparatorUTF8] arg) = [pathSeparatorUTF8, 97]) :
    Replaces .ascii [([pathSeparatorUTF8, 97], ofLiteral "x")] [pathSeparatorUTF8] ∅ [arg, arg]
      [responseFile .ascii [pathSeparatorUTF8] arg, responseFile .ascii [pathSeparatorUTF8] arg]
      (.ok [ofLiteral "x", ofLiteral "x"]) := by
  have hread : read [([pathSeparatorUTF8, 97], ofLiteral "x")] (responseFile .ascii [pathSeparatorUTF8] arg) =
      some (ofLiteral "x") := by
    rw [read, hnormalize]
    decide
  have htokens : tokenizeResponseFile (ofLiteral "x") = [ofLiteral "x"] := by decide
  have hnested : ∀ stack, Replaces .ascii [([pathSeparatorUTF8, 97], ofLiteral "x")] [pathSeparatorUTF8] stack
      (tokenizeResponseFile (ofLiteral "x")) [] (.ok [ofLiteral "x"]) := by
    intro stack
    rw [htokens]
    exact .argument (by decide) .nil
  exact .file hreference (Finset.notMem_empty _) hread (hnested _)
    (.file hreference (Finset.notMem_empty _) hread (hnested _) .nil)

theorem expandResponseFiles_twice :
    Expands .ascii (read [([pathSeparatorUTF8, 97], ofLiteral "x")]) [pathSeparatorUTF8] [ofLiteral "@a", ofLiteral "@a"]
      (.ok [ofLiteral "x", ofLiteral "x"]) := by
  have hnormalize : Path.normalize (responseFile .ascii [pathSeparatorUTF8] (ofLiteral "@a")) =
      [pathSeparatorUTF8, 97] := by
    rw [normalize_eq_normalForm (by decide)]
    decide
  have hremoved : ∀ path, Removed (responseFile .ascii [pathSeparatorUTF8] (ofLiteral "@a")) path := by
    intro path _
    rw [hnormalize]
    decide
  obtain ⟨result, hexpands, -, hmeets⟩ := (expandResponseFiles_iff _ _ _ _).2 Set.univ _ _ Unicode.ascii_plain
    (replaces_twice rfl hnormalize) (fun _ _ => trivial)
  have hmeets := hmeets.mpr (.inr (by simpa using hremoved _))
  rwa [hmeets.2 _ rfl] at hexpands

/-- Two references to `./a`, one after the other. -/
theorem expandResponseFiles_again :
    ¬ ∀ files basePath args references outcome result, Replaces .ascii files basePath ∅ args references outcome →
      Expands .ascii (read files) basePath args result → Meets outcome result := by
  intro h
  have hpath : responseFile .ascii [pathSeparatorUTF8] (ofLiteral "@./a") =
      [pathSeparatorUTF8, 46, pathSeparatorUTF8, 97] := by decide
  have hnormalize : Path.normalize (responseFile .ascii [pathSeparatorUTF8] (ofLiteral "@./a")) =
      [pathSeparatorUTF8, 97] := by
    rw [hpath, normalize_eq_normalForm (by decide)]
    decide
  have hreplaces := replaces_twice rfl hnormalize
  obtain ⟨r, ⟨fuel, hfuel⟩, hfollows⟩ := hreplaces.exists_endsWith Unicode.ascii_plain (fun _ _ => trivial)
    (Finset.Subset.refl ∅) (fun _ h => absurd h (Finset.notMem_empty _))
  rcases hfollows with ⟨hclean, -⟩ | ⟨-, hrecursive⟩
  · -- the normalized path is still in the set when the second reference is reached
    have hremoved := (pairwise_cons.mp hclean.removed).1 _ (mem_singleton_self _) rfl
    rw [hnormalize, hpath] at hremoved
    exact absurd hremoved (by decide)
  · have hmeets := h _ _ _ _ _ _ hreplaces ⟨fuel, congrArg (Option.map (Except.map Prod.fst)) hfuel⟩
    exact not_recursive_ok _ (hmeets.1.mp ((recursive_map_iff _ r).mpr hrecursive))

end Builra.ResponseFiles
