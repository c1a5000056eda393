import Builra.Basic.BinaryCoding

namespace Builra

open List
open Option hiding or_self

/-!
# `BuildSystem.FileSystem` — a finite file system without symlinks

The entries of a file system by their positions, and the paths that lead to them. What directory tasks need is that
the path made by `sys::path::append` for a name in a listing leads one level down (`locate_append_of_mem`), and that
this cannot go on for ever (`height_append_lt`).
-/

/-- `FileInfo::isDirectory`: the bit `S_IFDIR`, which the modes of sockets and block devices have too. -/
def FileInfo.isDirectory (info : FileInfo) : Bool := info.mode &&& 0x4000 ≠ 0

namespace FileSystem

abbrev Name := List UInt8

abbrev Path := List UInt8

def slash : UInt8 := '/'.toUInt8

def dot : UInt8 := '.'.toUInt8

/-- The names that entries of directories can have. -/
structure ProperName (x : Name) : Prop where
  ne_nil : x ≠ []
  slash_not_mem : slash ∉ x
  nul_not_mem : (0 : UInt8) ∉ x
  ne_dot : x ≠ [dot]
  ne_dotdot : x ≠ [dot, dot]

/-- An entry with what `stat` says of it. Only directories can be entered and listed. -/
structure Entry where
  info : FileInfo
  isDirectory : Bool := false
  present : info.isMissing = false
  mode : isDirectory = true → info.isDirectory = true

theorem root_present : ({ inode := 1, mode := 0x41ed } : FileInfo).isMissing = false := rfl

theorem root_mode : true = true → ({ inode := 1, mode := 0x41ed } : FileInfo).isDirectory = true := fun _ => rfl

end FileSystem

open FileSystem

/-- The entries by their positions, as names from the root on, and the names in each directory in the order in which
    they are read. -/
structure FileSystem where
  entry : List Name → Option Entry
  contents : List Name → List Name
  workingDirectory : List Name
  depth : Nat
  mem_contents : ∀ q x, x ∈ contents q ↔ (entry (q ++ [x])).isSome = true
  nodup_contents : ∀ q, (contents q).Nodup
  proper : ∀ q x, (entry (q ++ [x])).isSome = true → ProperName x
  parent : ∀ q x, (entry (q ++ [x])).isSome = true → ∃ e, entry q = some e ∧ e.isDirectory = true
  root : ∃ e, entry [] = some e ∧ e.isDirectory = true
  working : ∃ e, entry workingDirectory = some e ∧ e.isDirectory = true
  bounded : ∀ q, (entry q).isSome = true → q.length ≤ depth

namespace FileSystem

/-! ## Paths -/

/-- The components of a path, which slashes separate. -/
def components : Path → List Name
  | [] => [[]]
  | c :: path =>
    if c = slash then [] :: components path
    else
      match components path with
      | [] => [[c]]
      | x :: rest => (c :: x) :: rest

/-- `sys::path::append`. -/
def append (path : Path) (component : Name) : Path :=
  if path.getLast? = some slash then path ++ component.dropWhile (· = slash)
  else if component.head? = some slash ∨ path = [] then path ++ component
  else path ++ slash :: component

theorem components_ne_nil (path : Path) : components path ≠ [] := by
  cases path with
  | nil => simp [components]
  | cons c path =>
    unfold components
    split
    · simp
    · split <;> simp

theorem components_append_slash (path rest : Path) :
    components (path ++ slash :: rest) = components path ++ components rest := by
  induction path with
  | nil => simp [components]
  | cons c path ih =>
    rw [cons_append, components, components, ih]
    split
    · rfl
    · cases hpath : components path with
      | nil => exact absurd hpath (components_ne_nil path)
      | cons x xs => rfl

variable {x : Name} {path : Path} {q : List Name} {l : List (List Name × Entry)}

theorem components_of_slash_not_mem (hx : slash ∉ x) : components x = [x] := by
  induction x with
  | nil => rfl
  | cons c x ih =>
    simp only [mem_cons, not_or] at hx
    rw [components, if_neg (Ne.symm hx.1), ih hx.2]

theorem append_ne_nil (path : Path) (hx : ProperName x) : append path x ≠ [] := by
  unfold append
  split
  · rename_i h
    intro hnil
    simp [(append_eq_nil_iff.mp hnil).1] at h
  · split
    · simp [hx.ne_nil]
    · simp

theorem dropWhile_slash_of_proper (hx : ProperName x) : x.dropWhile (· = slash) = x := by
  cases x with
  | nil => rfl
  | cons c x =>
    have hc : c ≠ slash := fun h => hx.slash_not_mem (by simp [h])
    simp [hc]

theorem head?_ne_slash_of_proper (hx : ProperName x) : x.head? ≠ some slash := by
  cases x with
  | nil => simp
  | cons c x =>
    intro h
    exact hx.slash_not_mem (by simp_all)

/-- A path made for a name does not end in a slash. -/
theorem getLast?_append_ne_slash (path : Path) (hx : ProperName x) :
    (append path x).getLast? ≠ some slash := by
  have hlast : ∀ p : Path, (p ++ x).getLast? = x.getLast? := by
    intro p
    rw [getLast?_append]
    cases hl : x.getLast? with
    | none => exact absurd (getLast?_eq_none_iff.mp hl) hx.ne_nil
    | some c => rfl
  have hne : x.getLast? ≠ some slash := fun h => hx.slash_not_mem (mem_of_getLast? h)
  unfold append
  rw [dropWhile_slash_of_proper hx]
  split
  · rw [hlast]; exact hne
  · split
    · rw [hlast]; exact hne
    · have happ : path ++ slash :: x = (path ++ [slash]) ++ x := by simp
      rw [happ, hlast]
      exact hne

variable (fs : FileSystem)

/-- From a position through one component of a path. -/
def enter (pos : Option (List Name)) (x : Name) : Option (List Name) := do
  let q ← pos
  let e ← fs.entry q
  if e.isDirectory = false then none
  else if x = [] ∨ x = [dot] then some q
  else if x = [dot, dot] then some q.dropLast
  else if (fs.entry (q ++ [x])).isSome then some (q ++ [x])
  else none

/-- The position that a path leads to. -/
def locate (path : Path) : Option (List Name) :=
  if path = [] then none
  else (components path).foldl fs.enter (some (if path.head? = some slash then [] else fs.workingDirectory))

/-- `FileSystem::getFileInfo`: all zero if there is no such entry. -/
def getFileInfo (path : Path) : FileInfo :=
  match (fs.locate path).bind fs.entry with
  | none => {}
  | some e => e.info

/-- The names that a `directory_iterator` gives; none if the path is no directory. -/
def directoryIterator (path : Path) : List Name :=
  match fs.locate path with
  | none => []
  | some q => fs.contents q

/-- How far the entries below a path go down. -/
def height (path : Path) : Nat :=
  match fs.locate path with
  | none => 0
  | some q => fs.depth - q.length

variable {fs}

theorem enter_enter_nil (pos : Option (List Name)) (x : Name) : fs.enter (fs.enter pos []) x = fs.enter pos x := by
  cases pos with
  | none => rfl
  | some q =>
    cases hq : fs.entry q with
    | none => simp [enter, hq]
    | some e =>
      cases hd : e.isDirectory with
      | false => simp [enter, hq, hd]
      | true => simp [enter, hq, hd]

theorem locate_append (hpath : path ≠ []) (hx : ProperName x) :
    fs.locate (append path x) = fs.enter (fs.locate path) x := by
  have hhead : ∀ rest : Path, (path ++ rest).head? = path.head? := by
    intro rest
    cases path with
    | nil => exact absurd rfl hpath
    | cons c path => rfl
  rw [locate, if_neg (append_ne_nil path hx), locate, if_neg hpath]
  unfold append
  rw [dropWhile_slash_of_proper hx]
  split
  · -- the slash at the end is entered as an empty component
    rename_i hslash
    obtain ⟨init, rfl⟩ : ∃ init, path = init ++ [slash] := getLast?_eq_some_iff.mp hslash
    have hinit : components (init ++ [slash]) = components init ++ [[]] := components_append_slash init []
    have hall : components (init ++ [slash] ++ x) = components init ++ [x] := by
      rw [append_assoc, singleton_append, components_append_slash,
        components_of_slash_not_mem hx.slash_not_mem]
    rw [hall, hinit, hhead, foldl_append, foldl_append]
    exact (enter_enter_nil _ x).symm
  · rw [if_neg (not_or.mpr ⟨head?_ne_slash_of_proper hx, hpath⟩), components_append_slash,
      components_of_slash_not_mem hx.slash_not_mem, hhead, foldl_append]
    rfl

/-- A slash at the end is entered as an empty component. -/
theorem locate_of_slash {init : Path} (hinit : init ≠ []) :
    fs.locate (init ++ [slash]) = fs.enter (fs.locate init) [] := by
  have hhead : (init ++ [slash]).head? = init.head? := by
    cases init with
    | nil => exact absurd rfl hinit
    | cons c init => rfl
  have hcomponents : components (init ++ [slash]) = components init ++ [[]] :=
    components_append_slash init []
  rw [locate, if_neg (by simp), locate, if_neg hinit, hcomponents, hhead, foldl_append]
  rfl

theorem exists_entry_of_enter {pos : Option (List Name)} {q' : List Name} (h : fs.enter pos x = some q') :
    (fs.entry q').isSome = true := by
  cases pos with
  | none => simp [enter] at h
  | some q =>
    cases hq : fs.entry q with
    | none => simp [enter, hq] at h
    | some e =>
      simp only [enter, hq, bind_eq_bind, bind_some] at h
      split at h
      · cases h
      · split at h
        · cases h
          simp [hq]
        · split at h
          · cases h
            -- the position above an entry is one too
            cases q using List.reverseRecOn with
            | nil => simp [hq]
            | append_singleton init y =>
              obtain ⟨e', he', -⟩ := fs.parent init y (by simp [hq])
              simp [he']
          · split at h
            · rename_i hx
              cases h
              exact hx
            · cases h

/-- A path leads to entries only. -/
theorem exists_entry_of_locate (h : fs.locate path = some q) :
    ∃ e, fs.entry q = some e := by
  unfold locate at h
  split at h
  · cases h
  · rcases eq_nil_or_concat (components path) with hnil | ⟨init, x, hcomponents⟩
    · exact absurd hnil (components_ne_nil path)
    · rw [hcomponents, concat_eq_append, foldl_append] at h
      exact isSome_iff_exists.mp (exists_entry_of_enter h)

theorem locate_eq_none_iff : fs.locate path = none ↔ (fs.getFileInfo path).isMissing = true := by
  unfold getFileInfo
  cases h : fs.locate path with
  | none => simp [FileInfo.isMissing]
  | some q =>
    obtain ⟨e, he⟩ := exists_entry_of_locate h
    simp [he, e.present]

theorem ne_nil_of_locate (h : fs.locate path = some q) : path ≠ [] := by
  rintro rfl
  simp [locate] at h

theorem mem_directoryIterator :
    x ∈ fs.directoryIterator path ↔ ∃ q, fs.locate path = some q ∧ (fs.entry (q ++ [x])).isSome = true := by
  unfold directoryIterator
  cases h : fs.locate path with
  | none => simp
  | some q => simp [fs.mem_contents]

theorem nodup_directoryIterator (path : Path) : (fs.directoryIterator path).Nodup := by
  unfold directoryIterator
  cases fs.locate path with
  | none => exact nodup_nil
  | some q => exact fs.nodup_contents q

theorem proper_of_mem (h : x ∈ fs.directoryIterator path) : ProperName x := by
  obtain ⟨q, -, hx⟩ := mem_directoryIterator.mp h
  exact fs.proper q x hx

/-- One name further leads one level down, if there is an entry. -/
theorem locate_append_eq (hq : fs.locate path = some q) (hx : ProperName x) :
    fs.locate (append path x) = if (fs.entry (q ++ [x])).isSome then some (q ++ [x]) else none := by
  rw [locate_append (ne_nil_of_locate hq) hx, hq]
  obtain ⟨e, he⟩ := exists_entry_of_locate hq
  simp only [enter, he, Option.bind_eq_bind, Option.bind_some, hx.ne_nil, hx.ne_dot, hx.ne_dotdot, or_self,
    if_false]
  cases hd : e.isDirectory with
  | true => rfl
  | false =>
    -- nothing stands below a file
    have hnone : (fs.entry (q ++ [x])).isSome ≠ true := by
      intro h
      obtain ⟨e', he', hdir⟩ := fs.parent q x h
      rw [he] at he'
      cases he'
      simp [hd] at hdir
    simp [hnone]

/-- **A listed name leads to its entry.** -/
theorem locate_append_of_mem (h : x ∈ fs.directoryIterator path) :
    ∃ q, fs.locate path = some q ∧ fs.locate (append path x) = some (q ++ [x]) := by
  obtain ⟨q, hq, hx⟩ := mem_directoryIterator.mp h
  exact ⟨q, hq, by rw [locate_append_eq hq (fs.proper q x hx), if_pos hx]⟩

theorem getFileInfo_append_of_mem (h : x ∈ fs.directoryIterator path) :
    (fs.getFileInfo (append path x)).isMissing = false := by
  obtain ⟨q, -, hx⟩ := locate_append_of_mem h
  rw [← Bool.not_eq_true, ← locate_eq_none_iff, hx]
  simp

/-- A name is listed where there is an entry. -/
theorem mem_directoryIterator_iff (hpath : path ≠ []) (hx : ProperName x) :
    x ∈ fs.directoryIterator path ↔ (fs.getFileInfo (append path x)).isMissing = false := by
  constructor
  · exact getFileInfo_append_of_mem
  · intro h
    rw [← Bool.not_eq_true, ← locate_eq_none_iff] at h
    cases hq : fs.locate path with
    | none =>
      rw [locate_append hpath hx, hq] at h
      exact absurd rfl h
    | some q =>
      rw [locate_append_eq hq hx] at h
      refine mem_directoryIterator.mpr ⟨q, hq, ?_⟩
      by_contra hne
      rw [if_neg hne] at h
      exact h rfl

theorem directoryIterator_of_isMissing (h : (fs.getFileInfo path).isMissing = true) :
    fs.directoryIterator path = [] := by
  unfold directoryIterator
  rw [locate_eq_none_iff.mpr h]

/-- Only directories have entries. -/
theorem directoryIterator_of_file (h : (fs.getFileInfo path).isDirectory = false) :
    fs.directoryIterator path = [] := by
  rw [eq_nil_iff_forall_not_mem]
  intro x hx
  obtain ⟨q, hq, hx⟩ := mem_directoryIterator.mp hx
  obtain ⟨e, he, hdirectory⟩ := fs.parent q x hx
  have hinfo : fs.getFileInfo path = e.info := by
    unfold getFileInfo
    rw [hq, bind_some, he]
  rw [hinfo, e.mode hdirectory] at h
  cases h

/-- **Listings end**: the entries below a listed one go down less far. -/
theorem height_append_lt (h : x ∈ fs.directoryIterator path) :
    fs.height (append path x) < fs.height path := by
  obtain ⟨q, hq, hx⟩ := locate_append_of_mem h
  obtain ⟨e, he⟩ := exists_entry_of_locate hx
  have hbound := fs.bounded (q ++ [x]) (by simp [he])
  rw [length_append, length_singleton] at hbound
  unfold height
  rw [hq, hx]
  simp only [length_append, length_singleton]
  omega

/-! ## File systems from lists of entries -/

instance (x : Name) : Decidable (ProperName x) :=
  decidable_of_iff (x ≠ [] ∧ slash ∉ x ∧ (0 : UInt8) ∉ x ∧ x ≠ [dot] ∧ x ≠ [dot, dot])
    ⟨fun h => ⟨h.1, h.2.1, h.2.2.1, h.2.2.2.1, h.2.2.2.2⟩,
      fun h => ⟨h.ne_nil, h.slash_not_mem, h.nul_not_mem, h.ne_dot, h.ne_dotdot⟩⟩

/-- The entry at a position in a list. -/
def entryAt (l : List (List Name × Entry)) (q : List Name) : Option Entry :=
  (l.find? fun p => p.1 = q).map Prod.snd

def directoryAt (l : List (List Name × Entry)) (q : List Name) : Bool :=
  match entryAt l q with
  | none => false
  | some e => e.isDirectory

/-- The names under a position in a list. -/
def namesAt (l : List (List Name × Entry)) (q : List Name) : List Name :=
  (l.filterMap fun p => if p.1 ≠ [] ∧ p.1.dropLast = q then p.1.getLast? else none).dedup

/-- The entries of the list form a tree with proper names that has a working directory. -/
def isTree (l : List (List Name × Entry)) (workingDirectory : List Name) (depth : Nat) : Bool :=
  directoryAt l [] && directoryAt l workingDirectory && l.all fun p =>
    decide (p.1.length ≤ depth) && match p.1.getLast? with
    | none => true
    | some x => decide (ProperName x) && directoryAt l p.1.dropLast

theorem entryAt_isSome_iff :
    (entryAt l q).isSome = true ↔ ∃ p ∈ l, p.1 = q := by
  simp [entryAt]

theorem exists_of_directoryAt (h : directoryAt l q = true) :
    ∃ e, entryAt l q = some e ∧ e.isDirectory = true := by
  unfold directoryAt at h
  split at h
  · cases h
  · rename_i e he
    exact ⟨e, he, h⟩

theorem mem_namesAt :
    x ∈ namesAt l q ↔ (entryAt l (q ++ [x])).isSome = true := by
  rw [entryAt_isSome_iff, namesAt, mem_dedup, mem_filterMap]
  refine exists_congr fun p => and_congr_right fun _ => ?_
  constructor
  · intro h
    split at h
    · rename_i hp
      rw [← hp.2, dropLast_append_getLast? x h]
    · cases h
  · intro h
    rw [h]
    simp

/-- A file system from the list of its entries. -/
def ofEntries (l : List (List Name × Entry)) (workingDirectory : List Name) (depth : Nat)
    (h : isTree l workingDirectory depth = true) : FileSystem :=
  have hroot : directoryAt l [] = true ∧ directoryAt l workingDirectory = true := by
    simp only [isTree, Bool.and_eq_true] at h
    exact h.1
  have hall : ∀ p ∈ l, p.1.length ≤ depth ∧ ∀ x, p.1.getLast? = some x →
      ProperName x ∧ directoryAt l p.1.dropLast = true := by
    intro p hp
    simp only [isTree, Bool.and_eq_true, List.all_eq_true, decide_eq_true_eq] at h
    refine ⟨(h.2 p hp).1, fun x hx => ?_⟩
    have hlast := (h.2 p hp).2
    rw [hx] at hlast
    simpa using hlast
  { entry := entryAt l
    contents := namesAt l
    workingDirectory := workingDirectory
    depth := depth
    mem_contents := fun q x => mem_namesAt
    nodup_contents := fun q => nodup_dedup _
    proper := fun q x hx => by
      obtain ⟨p, hp, hpq⟩ := entryAt_isSome_iff.mp hx
      exact ((hall p hp).2 x (by simp [hpq])).1
    parent := fun q x hx => by
      obtain ⟨p, hp, hpq⟩ := entryAt_isSome_iff.mp hx
      have hdir := ((hall p hp).2 x (by simp [hpq])).2
      rw [hpq, dropLast_concat] at hdir
      exact exists_of_directoryAt hdir
    root := exists_of_directoryAt hroot.1
    working := exists_of_directoryAt hroot.2
    bounded := fun q hq => by
      obtain ⟨p, hp, rfl⟩ := entryAt_isSome_iff.mp hq
      exact (hall p hp).1 }

end FileSystem

end Builra
