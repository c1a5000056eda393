import Builra.BuildSystem.FileSystem
import Mathlib.Data.Set.Finite.Lattice

namespace Builra

open List
open Option hiding or_self

/-!
# `BuildSystem.LinkedFileSystem` — a finite file system with symlinks

The entries and symlinks of a file system by their positions. A symlink is given by the position that it resolves to,
as `realpath` finds it: its text is not read by anything here. A system may have a limit for the number of symlinks in
the resolution of one path. Paths are absolute.

What directory tasks need is where the path made for a name in a listing leads (`locate_append`), and how much the text
of a path says of the position that it leads to (`locate_text`, `exists_text_of_append_eq`).
-/

open FileSystem

namespace LinkedFileSystem

/-- What stands at a position: an entry, or a symlink with the position that it resolves to, if there is one, and the
    number of further symlinks on the way there. -/
inductive Node where
  | entry (e : Entry)
  | symlink (target : Option (List Name)) (further : Nat)

/-- A directory. -/
def Node.isDirectory : Node → Bool
  | entry e => e.isDirectory
  | symlink _ _ => false

end LinkedFileSystem

open LinkedFileSystem

/-- The nodes by their positions, as names from the root on, and the names in each directory in the order in which they
    are read. -/
structure LinkedFileSystem where
  node : List Name → Option Node
  contents : List Name → List Name
  maxLinks : Option Nat
  depth : Nat
  mem_contents : ∀ q x, x ∈ contents q ↔ (node (q ++ [x])).isSome = true
  nodup_contents : ∀ q, (contents q).Nodup
  proper : ∀ q x, (node (q ++ [x])).isSome = true → ProperName x
  parent : ∀ q x, (node (q ++ [x])).isSome = true → ∃ e, node q = some (.entry e) ∧ e.isDirectory = true
  root : ∃ e, node [] = some (.entry e) ∧ e.isDirectory = true
  target : ∀ q r n, node q = some (.symlink (some r) n) → ∃ e, node r = some (.entry e)
  bounded : ∀ q, (node q).isSome = true → q.length ≤ depth

namespace LinkedFileSystem

/-! ## Texts of positions -/

variable (q : List Name)

/-- The real path to a position. -/
def text : Path := if q = [] then [slash] else q.flatMap (slash :: ·)

theorem text_nil : text [] = [slash] := rfl

theorem head?_text : (text q).head? = some slash := by
  cases q with
  | nil | cons x q => rfl

theorem text_ne_nil : text q ≠ [] := by
  intro h
  have := head?_text q
  rw [h] at this
  cases this

variable {q r : List Name} {x : Name} {path : Path} {links : Nat}

/-- The real path one level further down. -/
theorem text_concat (x : Name) : text (q ++ [x]) = if q = [] then slash :: x else text q ++ slash :: x := by
  cases q with
  | nil | cons y q => simp [text]

/-- The real path of a directory above is written at the start. -/
theorem text_mono (h : r <+: q) : text r <+: text q := by
  obtain ⟨s, rfl⟩ := h
  cases r with
  | nil =>
    cases s with
    | nil => exact prefix_rfl
    | cons x s => exact ⟨x ++ s.flatMap (slash :: ·), rfl⟩
  | cons x r => exact ⟨s.flatMap (slash :: ·), by simp [text]⟩

theorem getLast?_text (hx : ProperName x) : (text (q ++ [x])).getLast? ≠ some slash := by
  intro h
  have hslash : slash ∈ x := by
    have hlast : (slash :: x).getLast? = some slash := by
      rw [text_concat] at h
      split at h
      · exact h
      · rw [getLast?_append] at h
        simpa using h
    cases x with
    | nil => exact absurd rfl hx.ne_nil
    | cons c x =>
      rw [getLast?_cons_cons] at hlast
      exact mem_of_getLast? hlast
  exact hx.slash_not_mem hslash

/-- A name is appended to a real path. -/
theorem append_text (hq : ∀ y ∈ q, ProperName y) (hx : ProperName x) :
    append (text q) x = text (q ++ [x]) := by
  rw [text_concat]
  cases q using List.reverseRecOn with
  | nil =>
    rw [if_pos rfl, text_nil, append, dropWhile_slash_of_proper hx]
    rfl
  | append_singleton q y =>
    have hy : ProperName y := hq y (by simp)
    rw [if_neg (by simp), append, if_neg (getLast?_text hy),
      if_neg (not_or.mpr ⟨head?_ne_slash_of_proper hx, text_ne_nil _⟩)]

/-- **A text that is taken further to a real path**, at the end of a name, is itself a real path, apart from a slash at
    the end. -/
theorem exists_text_of_append_eq {t rest : Path} (hr : ∀ y ∈ r, ProperName y) (ht : t ≠ []) (hrest : rest ≠ [])
    (hslash : t.getLast? = some slash ∨ rest.head? = some slash) (h : t ++ rest = text r) :
    ∃ s, s <+: r ∧ (t = text s ∨ t = text s ++ [slash]) := by
  induction r using List.reverseRecOn generalizing rest with
  | nil =>
    -- the root is a single slash
    have hlength := congrArg List.length h
    rw [text_nil, length_append, length_singleton] at hlength
    have := length_pos_iff.mpr ht
    have := length_pos_iff.mpr hrest
    omega
  | append_singleton r x ih =>
    have hx : ProperName x := hr x (by simp)
    have hr' : ∀ y ∈ r, ProperName y := fun y hy => hr y (mem_append_left _ hy)
    obtain ⟨base, hbase, hconcat⟩ : ∃ base, base = (if r = [] then [] else text r) ∧
        text (r ++ [x]) = base ++ slash :: x := by
      refine ⟨_, rfl, ?_⟩
      rw [text_concat]
      split <;> rfl
    -- where the base is all of the text, it is the one of the directory above
    have hwhole : t = base → ∃ s, s <+: r ++ [x] ∧ (t = text s ∨ t = text s ++ [slash]) := by
      intro heq
      by_cases hnil : r = []
      · rw [if_pos hnil] at hbase
        exact absurd (heq.trans hbase) ht
      · rw [if_neg hnil] at hbase
        exact ⟨r, prefix_append r [x], Or.inl (heq.trans hbase)⟩
    rw [hconcat] at h
    rcases append_eq_append_iff.mp h with ⟨mid, hmid, hrest'⟩ | ⟨mid, hmid, hrest'⟩
    · by_cases hnil : mid = []
      · rw [hnil, append_nil] at hmid
        exact hwhole hmid.symm
      · -- the text ends further up
        have hne : r ≠ [] := by
          intro hr
          rw [if_pos hr, hmid] at hbase
          exact ht (append_eq_nil_iff.mp hbase).1
        rw [if_neg hne] at hbase
        have hhead : t.getLast? = some slash ∨ mid.head? = some slash := by
          rw [hrest', head?_append_of_ne_nil _ hnil] at hslash
          exact hslash
        obtain ⟨s, hs, htext⟩ := ih hr' hnil hhead (hmid.symm.trans hbase)
        exact ⟨s, hs.trans (prefix_append r [x]), htext⟩
    · cases mid with
      | nil => exact hwhole (by rw [hmid, append_nil])
      | cons c mid =>
        rw [cons_append, List.cons.injEq] at hrest'
        obtain ⟨rfl, hx'⟩ := hrest'
        by_cases hnil : mid = []
        · -- a slash at the end
          rw [hnil] at hmid
          by_cases hr : r = []
          · rw [if_pos hr] at hbase
            exact ⟨[], nil_prefix, Or.inl (by rw [hmid, hbase]; rfl)⟩
          · rw [if_neg hr] at hbase
            exact ⟨r, prefix_append r [x], Or.inr (by rw [hmid, hbase])⟩
        · -- inside the last name there is no slash
          refine absurd ?_ hx.slash_not_mem
          rw [hx']
          rcases hslash with hlast | hhead
          · rw [hmid, getLast?_append, getLast?_cons_of_ne_nil hnil] at hlast
            obtain ⟨c, hc⟩ := isSome_iff_exists.mp (getLast?_isSome.mpr hnil)
            rw [hc, some_or] at hlast
            rw [← Option.some.inj hlast]
            exact mem_append_left _ (mem_of_getLast? hc)
          · exact mem_append_right _ (mem_of_head? hhead)

/-- The components of a path that is taken one name further; an empty component at the end gives way. -/
theorem components_append (hpath : path ≠ []) (hx : ProperName x) :
    components (append path x) = components path ++ [x] ∨
      ∃ init, components path = init ++ [[]] ∧ components (append path x) = init ++ [x] := by
  unfold append
  rw [dropWhile_slash_of_proper hx]
  split
  · rename_i hslash
    obtain ⟨init, rfl⟩ : ∃ init, path = init ++ [slash] := getLast?_eq_some_iff.mp hslash
    refine Or.inr ⟨components init, components_append_slash init [], ?_⟩
    rw [append_assoc, singleton_append, components_append_slash, components_of_slash_not_mem hx.slash_not_mem]
  · refine Or.inl ?_
    rw [if_neg (not_or.mpr ⟨head?_ne_slash_of_proper hx, hpath⟩), components_append_slash,
      components_of_slash_not_mem hx.slash_not_mem]

theorem isPrefix_append (path : Path) (x : Name) : path <+: append path x := by
  unfold append
  split
  · exact prefix_append _ _
  · split <;> exact prefix_append _ _

theorem head?_append_path (h : path.head? = some slash) :
    (append path x).head? = some slash := by
  obtain ⟨rest, hrest⟩ := isPrefix_append path x
  cases path with
  | nil => cases h
  | cons c path =>
    rw [← hrest]
    exact h

/-- A name makes a path longer. -/
theorem length_lt_append (path : Path) (hx : ProperName x) : path.length < (append path x).length := by
  have hpos : 0 < x.length := length_pos_iff.mpr hx.ne_nil
  unfold append
  rw [dropWhile_slash_of_proper hx]
  split
  · rw [length_append]
    omega
  · split
    · rw [length_append]
      omega
    · rw [length_append, length_cons]
      omega

/-! ## Resolution -/

variable (fs : LinkedFileSystem)

def isDirectoryAt (q : List Name) : Bool := ((fs.node q).map Node.isDirectory).getD false

/-- Whether a path may go through so many symlinks. -/
def allows (links : Nat) : Bool := fs.maxLinks.all fun maxLinks => decide (links ≤ maxLinks)

/-- From a position through one component of a path, with the number of symlinks so far. -/
def enter (pos : Option (List Name × Nat)) (x : Name) : Option (List Name × Nat) := do
  let (q, links) ← pos
  if fs.isDirectoryAt q = false then none
  else if x = [] ∨ x = [dot] then some (q, links)
  else if x = [dot, dot] then some (q.dropLast, links)
  else
    match fs.node (q ++ [x]) with
    | none => none
    | some (.entry _) => some (q ++ [x], links)
    | some (.symlink target further) =>
      if fs.allows (links + 1 + further) then target.map fun r => (r, links + 1 + further) else none

/-- The position that a path leads to, and the number of symlinks on the way; none if it leads nowhere or through too
    many symlinks. -/
def locate (path : Path) : Option (List Name × Nat) :=
  if path.head? = some slash then (components path).foldl fs.enter (some ([], 0)) else none

/-- `FileSystem::getFileInfo`: all zero if there is no such entry. -/
def getFileInfo (path : Path) : FileInfo :=
  match fs.locate path with
  | none => {}
  | some (q, _) =>
    match fs.node q with
    | some (.entry e) => e.info
    | _ => {}

/-- `real_path`; none for an error. -/
def realPath (path : Path) : Option Path := (fs.locate path).map fun pos => text pos.1

/-- The names that are read from the directory at a path; none if the path is no directory. -/
def names (path : Path) : List Name :=
  match fs.locate path with
  | none => []
  | some (q, _) => fs.contents q

/-- `is_symlink_file` for the status of an entry of the directory at a path. -/
def isSymlinkFile (path : Path) (x : Name) : Bool :=
  match fs.locate path with
  | none => false
  | some (q, _) =>
    match fs.node (q ++ [x]) with
    | some (.symlink _ _) => true
    | _ => false

variable {fs}

/-- An entry is below directories, so it is not reached through a symlink. -/
theorem entry_above (hr : (fs.node r).isSome = true) (h : q <+: r) (hne : q ≠ r) :
    ∃ e, fs.node q = some (.entry e) ∧ e.isDirectory = true := by
  obtain ⟨s, rfl⟩ := h
  induction s using List.reverseRecOn with
  | nil => exact absurd (append_nil q).symm hne
  | append_singleton s x ih =>
    rw [← append_assoc] at hr
    obtain ⟨e, he, hdirectory⟩ := fs.parent (q ++ s) x hr
    by_cases hs : s = []
    · rw [hs, append_nil] at he
      exact ⟨e, he, hdirectory⟩
    · refine ih (by simp [he]) fun heq => hs ?_
      exact append_right_eq_self.mp heq.symm

theorem proper_of_mem_position (hq : (fs.node q).isSome = true) : ∀ y ∈ q, ProperName y := by
  induction q using List.reverseRecOn with
  | nil => intro y hy; cases hy
  | append_singleton q x ih =>
    intro y hy
    obtain ⟨e, he, -⟩ := fs.parent q x hq
    rcases mem_append.mp hy with hy | hy
    · exact ih (by simp [he]) y hy
    · rw [mem_singleton.mp hy]
      exact fs.proper q x hq

theorem isDirectoryAt_iff :
    fs.isDirectoryAt q = true ↔ ∃ e, fs.node q = some (.entry e) ∧ e.isDirectory = true := by
  unfold isDirectoryAt
  cases hq : fs.node q with
  | none => simp
  | some node =>
    cases node with
    | entry e | symlink target further => simp [Node.isDirectory]

/-- A proper name. -/
theorem enter_proper (hx : ProperName x) (hq : fs.isDirectoryAt q = true) :
    fs.enter (some (q, links)) x =
      match fs.node (q ++ [x]) with
      | none => none
      | some (.entry _) => some (q ++ [x], links)
      | some (.symlink target further) =>
        if fs.allows (links + 1 + further) then target.map fun r => (r, links + 1 + further) else none := by
  simp only [enter, Option.bind_eq_bind, Option.bind_some, hq, hx.ne_nil, hx.ne_dot, hx.ne_dotdot, or_self, if_false,
    Bool.true_eq_false]

theorem enter_enter_nil (pos : Option (List Name × Nat)) (x : Name) : fs.enter (fs.enter pos []) x = fs.enter pos x := by
  cases pos with
  | none => rfl
  | some pos =>
    cases hq : fs.isDirectoryAt pos.1 with
    | false | true => simp [enter, hq]

/-- **Where the path for a name leads.** -/
theorem locate_append (hpath : path.head? = some slash) (hx : ProperName x) :
    fs.locate (append path x) = fs.enter (fs.locate path) x := by
  have hne : path ≠ [] := by
    rintro rfl
    cases hpath
  rw [locate, if_pos (head?_append_path hpath), locate, if_pos hpath]
  rcases components_append hne hx with h | ⟨init, hinit, h⟩
  · rw [h, foldl_append]
    rfl
  · rw [h, hinit, foldl_append, foldl_append]
    exact (enter_enter_nil _ x).symm

theorem head?_of_locate {pos : List Name × Nat} (h : fs.locate path = some pos) :
    path.head? = some slash := by
  unfold locate at h
  split at h
  · assumption
  · cases h

/-- One component leads from an entry to an entry, and to no more symlinks than are allowed. -/
theorem entry_of_enter {pos : List Name × Nat} {pos' : List Name × Nat}
    (hpos : (∃ e, fs.node pos.1 = some (.entry e)) ∧ fs.allows pos.2 = true) (h : fs.enter (some pos) x = some pos') :
    (∃ e, fs.node pos'.1 = some (.entry e)) ∧ fs.allows pos'.2 = true := by
  obtain ⟨q, links⟩ := pos
  simp only [enter, bind_eq_bind, bind_some] at h
  split at h
  · cases h
  · split at h
    · cases h
      exact hpos
    · split at h
      · cases h
        refine ⟨?_, hpos.2⟩
        cases q using List.reverseRecOn with
        | nil => exact hpos.1
        | append_singleton q y =>
          obtain ⟨e, he⟩ := hpos.1
          obtain ⟨e', he', -⟩ := fs.parent q y (by simp [he])
          exact ⟨e', by simpa using he'⟩
      · split at h
        · cases h
        · rename_i e hx
          cases h
          exact ⟨⟨e, hx⟩, hpos.2⟩
        · rename_i target further hx
          split at h
          · rename_i hallows
            obtain ⟨r, rfl, rfl⟩ := map_eq_some_iff.mp h
            exact ⟨fs.target _ _ _ hx, hallows⟩
          · cases h

/-- A path leads to entries only. -/
theorem entry_of_locate (h : fs.locate path = some (q, links)) :
    (∃ e, fs.node q = some (.entry e)) ∧ fs.allows links = true := by
  rw [locate, if_pos (head?_of_locate h)] at h
  have hstart : ∀ (l : List Name) (pos pos' : List Name × Nat),
      (∃ e, fs.node pos.1 = some (.entry e)) ∧ fs.allows pos.2 = true → l.foldl fs.enter (some pos) = some pos' →
      (∃ e, fs.node pos'.1 = some (.entry e)) ∧ fs.allows pos'.2 = true := by
    intro l
    induction l with
    | nil =>
      intro pos pos' hpos h
      cases h
      exact hpos
    | cons x l ih =>
      intro pos pos' hpos h
      rw [foldl_cons] at h
      cases henter : fs.enter (some pos) x with
      | none =>
        -- from nowhere no component leads on
        rw [henter] at h
        have hnone : ∀ l : List Name, l.foldl fs.enter none = none := by
          intro l
          induction l with
          | nil => rfl
          | cons y l ih => exact ih
        rw [hnone] at h
        cases h
      | some pos₁ =>
        rw [henter] at h
        exact ih pos₁ pos' (entry_of_enter hpos henter) h
  obtain ⟨e, he, -⟩ := fs.root
  refine hstart _ ([], 0) (q, links) ⟨⟨e, he⟩, ?_⟩ h
  unfold allows
  cases fs.maxLinks <;> simp

/-- **The real path to an entry leads to it**, through no symlink. -/
theorem locate_text {e : Entry} (hq : fs.node q = some (.entry e)) : fs.locate (text q) = some (q, 0) := by
  induction q using List.reverseRecOn generalizing e with
  | nil =>
    have hroot : fs.isDirectoryAt [] = true := isDirectoryAt_iff.mpr fs.root
    have hcomponents : components (text []) = [[], []] := rfl
    rw [locate, if_pos (head?_text []), hcomponents]
    simp [enter, hroot]
  | append_singleton q x ih =>
    have hsome : (fs.node (q ++ [x])).isSome = true := by simp [hq]
    have hx := fs.proper q x hsome
    obtain ⟨e', he', hdirectory⟩ := fs.parent q x hsome
    have hsome' : (fs.node q).isSome = true := by simp [he']
    rw [← append_text (proper_of_mem_position hsome') hx, locate_append (head?_text q) hx, ih he',
      enter_proper hx (isDirectoryAt_iff.mpr ⟨e', he', hdirectory⟩), hq]

/-- A slash at the end makes no difference for a directory. -/
theorem locate_text_slash (hq : fs.isDirectoryAt q = true) :
    fs.locate (text q ++ [slash]) = some (q, 0) := by
  obtain ⟨e, he, -⟩ := isDirectoryAt_iff.mp hq
  have hhead : (text q ++ [slash]).head? = some slash := by
    rw [head?_append, head?_text]
    rfl
  have hcomponents : components (text q ++ [slash]) = components (text q) ++ [[]] := components_append_slash _ []
  have htext := locate_text he
  rw [locate, if_pos (head?_text q)] at htext
  rw [locate, if_pos hhead, hcomponents, foldl_append, htext]
  simp [enter, hq]

theorem mem_names :
    x ∈ fs.names path ↔ ∃ q links, fs.locate path = some (q, links) ∧ (fs.node (q ++ [x])).isSome = true := by
  unfold names
  cases h : fs.locate path with
  | none => simp
  | some pos => simp [fs.mem_contents, Prod.ext_iff]

theorem nodup_names (path : Path) : (fs.names path).Nodup := by
  unfold names
  cases fs.locate path with
  | none => exact nodup_nil
  | some pos => exact fs.nodup_contents pos.1

theorem proper_of_mem_names (h : x ∈ fs.names path) : ProperName x := by
  obtain ⟨q, links, -, hx⟩ := mem_names.mp h
  exact fs.proper q x hx

/-- A listed name leads to what stands there, or where the symlink leads. -/
theorem locate_append_of_mem (hq : fs.locate path = some (q, links)) (hx : x ∈ fs.names path) :
    fs.locate (append path x) =
      match fs.node (q ++ [x]) with
      | none => none
      | some (.entry _) => some (q ++ [x], links)
      | some (.symlink target further) =>
        if fs.allows (links + 1 + further) then target.map fun r => (r, links + 1 + further) else none := by
  obtain ⟨q', links', hq', hsome⟩ := mem_names.mp hx
  rw [hq] at hq'
  cases hq'
  rw [locate_append (head?_of_locate hq) (fs.proper q x hsome), hq,
    enter_proper (fs.proper q x hsome) (isDirectoryAt_iff.mpr (fs.parent q x hsome))]

/-- Only directories have entries. -/
theorem isDirectory_of_mem_names (h : x ∈ fs.names path) :
    (fs.getFileInfo path).isDirectory = true := by
  obtain ⟨q, links, hq, hx⟩ := mem_names.mp h
  obtain ⟨e, he, hdirectory⟩ := fs.parent q x hx
  have hinfo : fs.getFileInfo path = e.info := by simp only [getFileInfo, hq, he]
  rw [hinfo]
  exact e.mode hdirectory

/-- **There are finitely many positions.** -/
theorem finite_positions (fs : LinkedFileSystem) : {q | (fs.node q).isSome = true}.Finite := by
  have hbounded : ∀ n, {q | (fs.node q).isSome = true ∧ q.length ≤ n}.Finite := by
    intro n
    induction n with
    | zero =>
      refine (Set.finite_singleton []).subset fun q hq => ?_
      exact length_eq_zero_iff.mp (Nat.le_zero.mp hq.2)
    | succ n ih =>
      -- a position is the root or one name below a shorter one
      have hsub : {q | (fs.node q).isSome = true ∧ q.length ≤ n + 1} ⊆
          {[]} ∪ ⋃ q ∈ {q | (fs.node q).isSome = true ∧ q.length ≤ n}, {q' | ∃ x ∈ fs.contents q, q' = q ++ [x]} := by
        rintro q ⟨hq, hlength⟩
        cases q using List.reverseRecOn with
        | nil => exact Or.inl rfl
        | append_singleton q x =>
          obtain ⟨e, he, -⟩ := fs.parent q x hq
          rw [length_append, length_singleton] at hlength
          refine Or.inr (Set.mem_biUnion ⟨by simp [he], by omega⟩ ⟨x, (fs.mem_contents q x).mpr hq, rfl⟩)
      refine ((Set.finite_singleton []).union (ih.biUnion fun q _ => ?_)).subset hsub
      refine ((fs.contents q).toFinset.finite_toSet.image fun x => q ++ [x]).subset ?_
      rintro q' ⟨x, hx, rfl⟩
      exact ⟨x, by simpa using hx, rfl⟩
  exact (hbounded fs.depth).subset fun q hq => ⟨hq, fs.bounded q hq⟩

/-! ## File systems without symlinks, and symlinks added to them -/

/-- A file system without symlinks. -/
def ofFileSystem (fs : FileSystem) (maxLinks : Option Nat) : LinkedFileSystem where
  node q := (fs.entry q).map Node.entry
  contents := fs.contents
  maxLinks := maxLinks
  depth := fs.depth
  mem_contents q x := by rw [fs.mem_contents, isSome_map]
  nodup_contents := fs.nodup_contents
  proper q x h := fs.proper q x (by rwa [isSome_map] at h)
  parent q x h := by
    rw [isSome_map] at h
    obtain ⟨e, he, hdirectory⟩ := fs.parent q x h
    exact ⟨e, by rw [he]; rfl, hdirectory⟩
  root := by
    obtain ⟨e, he, hdirectory⟩ := fs.root
    exact ⟨e, by rw [he]; rfl, hdirectory⟩
  target q r n h := by
    obtain ⟨e, -, hnode⟩ := map_eq_some_iff.mp h
    cases hnode
  bounded q h := fs.bounded q (by rwa [isSome_map] at h)

/-- A symlink is put into a directory. -/
def withSymlink (fs : LinkedFileSystem) (q : List Name) (x : Name) (target : Option (List Name)) (further : Nat)
    (hq : fs.isDirectoryAt q = true) (hx : ProperName x) (hnew : fs.node (q ++ [x]) = none)
    (htarget : ∀ r ∈ target, ∃ e, fs.node r = some (.entry e)) : LinkedFileSystem :=
  have hkept : ∀ r e, fs.node r = some (.entry e) →
      (if r = q ++ [x] then some (.symlink target further) else fs.node r) = some (.entry e) := by
    intro r e hr
    rw [if_neg]
    · exact hr
    · rintro rfl
      rw [hnew] at hr
      cases hr
  { node := fun q' => if q' = q ++ [x] then some (.symlink target further) else fs.node q'
    contents := fun q' => if q' = q then fs.contents q ++ [x] else fs.contents q'
    maxLinks := fs.maxLinks
    depth := max fs.depth (q.length + 1)
    mem_contents := fun q' x' => by
      by_cases hq' : q' = q
      · subst hq'
        rw [if_pos rfl, mem_append, mem_singleton, fs.mem_contents]
        by_cases hx' : x' = x
        · simp [hx']
        · simp [hx']
      · rw [if_neg hq', if_neg fun heq => hq' (append_singleton_inj.mp heq).1, fs.mem_contents]
    nodup_contents := fun q' => by
      split
      · refine nodup_append.mpr ⟨fs.nodup_contents q, nodup_singleton x, ?_⟩
        intro y hy z hz heq
        rw [heq, mem_singleton.mp hz, fs.mem_contents, hnew] at hy
        cases hy
      · exact fs.nodup_contents q'
    proper := fun q' x' h => by
      by_cases heq : q' ++ [x'] = q ++ [x]
      · rw [(append_singleton_inj.mp heq).2]
        exact hx
      · rw [if_neg heq] at h
        exact fs.proper q' x' h
    parent := fun q' x' h => by
      have hparent : ∃ e, fs.node q' = some (.entry e) ∧ e.isDirectory = true := by
        by_cases heq : q' ++ [x'] = q ++ [x]
        · rw [(append_singleton_inj.mp heq).1]
          exact isDirectoryAt_iff.mp hq
        · rw [if_neg heq] at h
          exact fs.parent q' x' h
      obtain ⟨e, he, hdirectory⟩ := hparent
      exact ⟨e, hkept q' e he, hdirectory⟩
    root := by
      obtain ⟨e, he, hdirectory⟩ := fs.root
      exact ⟨e, hkept [] e he, hdirectory⟩
    target := fun q' r n h => by
      have htarget' : ∃ e, fs.node r = some (.entry e) := by
        split at h
        · cases h
          exact htarget r rfl
        · exact fs.target q' r n h
      obtain ⟨e, he⟩ := htarget'
      exact ⟨e, hkept r e he⟩
    bounded := fun q' h => by
      split at h
      · rename_i heq
        rw [heq, length_append, length_singleton]
        exact le_max_right _ _
      · exact (fs.bounded q' h).trans (le_max_left _ _) }

end LinkedFileSystem

end Builra
