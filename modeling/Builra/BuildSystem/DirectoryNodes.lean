import Builra.BuildSystem.BuildNode
import Builra.BuildSystem.DirectoryKinds
import Builra.BuildSystem.DirectoryValues
import Mathlib.Data.Prod.Lex

namespace Builra

open List FileSystem

/-!
# `BuildSystem.DirectoryNodes` — declared directories

When do the nodes of a build file that are declared directories have the signatures of their paths as values, and
when do the requests from their keys on end? Each directory node requests the signature of a path that has one slash
less at the end, and this the node of that path: the number of slashes at the end and the height of what is under a
path bound the requests (`wellFoundedFrom_node`).

What goes wrong is said by `Description.Fine`: `type: directory` makes a plain node, and a node whose name does not
end in a slash, but which is declared a directory, requests itself.
-/

open FileSystem (Name Path slash)
open Demand

namespace DirectoryTasks

open SignatureTask

variable {S : Type}

section

variable {env : Env S} {fs : FileSystem} {path : Path} {filters : List Name} {kind : SignatureKind} {name : Name}
  {v : Value S}

/-! ## Slashes at the end -/

/-- The number of slashes at the end of a path. -/
def trailingSlashes (path : Path) : Nat := (path.reverse.takeWhile (· = slash)).length

theorem trailingSlashes_concat (path : Path) : trailingSlashes (path ++ [slash]) = trailingSlashes path + 1 := by
  simp [trailingSlashes]

theorem trailingSlashes_of_ne (h : path.getLast? ≠ some slash) : trailingSlashes path = 0 := by
  rw [← head?_reverse] at h
  unfold trailingSlashes
  cases hreverse : path.reverse with
  | nil => rfl
  | cons c rest =>
    rw [hreverse, head?_cons] at h
    have hc : c ≠ slash := fun hc => h (by rw [hc])
    simp [hc]

/-- A path is not made of slashes only. -/
def Substantial (path : Path) : Prop := path.getLast? = some slash → ∃ c ∈ path, c ≠ slash

theorem substantial_of_ne (h : path.getLast? ≠ some slash) : Substantial path := fun hslash => absurd hslash h

theorem Substantial.init (h : Substantial (path ++ [slash])) : path ≠ [] ∧ Substantial path := by
  obtain ⟨c, hc, hne⟩ := h (by simp)
  rw [mem_append, mem_singleton] at hc
  have hc' : c ∈ path := hc.resolve_right hne
  exact ⟨ne_nil_of_mem hc', fun _ => ⟨c, hc', hne⟩⟩

theorem substantial_concat (hpath : path ≠ []) (h : Substantial path) : Substantial (path ++ [slash]) := by
  intro _
  by_cases hslash : path.getLast? = some slash
  · obtain ⟨c, hc, hne⟩ := h hslash
    exact ⟨c, by simp [hc], hne⟩
  · obtain ⟨init, c, rfl⟩ : ∃ init c, path = init ++ [c] := by
      rcases eq_nil_or_concat path with hnil | ⟨init, c, hconcat⟩
      · exact absurd hnil hpath
      · exact ⟨init, c, by rw [hconcat, concat_eq_append]⟩
    refine ⟨c, by simp, ?_⟩
    rintro rfl
    exact hslash (by simp)

theorem nodePath_concat (hpath : path ≠ []) : nodePath (path ++ [slash]) = path := by
  rw [nodePath, if_pos, dropLast_concat]
  refine ⟨by simp, fun h => hpath ?_⟩
  exact append_cancel_right (h.trans (nil_append [slash]).symm)

/-- A directory node is named after a path or requests itself. -/
theorem exists_concat_of_nodePath_ne (h : nodePath name ≠ name) : ∃ p, p ≠ [] ∧ name = p ++ [slash] := by
  unfold nodePath at h
  split at h
  · rename_i hslash
    obtain ⟨p, rfl⟩ : ∃ p, name = p ++ [slash] := getLast?_eq_some_iff.mp hslash.1
    refine ⟨p, ?_, rfl⟩
    rintro rfl
    exact hslash.2 rfl
  · exact absurd rfl h

/-! ## What each key requests -/

/-- No node is produced or has to wait for others. -/
structure Unproduced (env : Env S) : Prop where
  producers : ∀ name, (env.lookupNode name).producers = []
  mustScanAfterPaths : ∀ name, (env.lookupNode name).mustScanAfterPaths = []

theorem not_requests_of_input (hproducers : (env.lookupNode name).producers = [])
    (htype : ∀ kind : SignatureKind, (env.lookupNode name).type ≠ kind.nodeType) (k : Key) :
    ¬Requests (tasks env fs) (.node name) k := by
  intro h
  have hnone : ∀ state, (tasks env fs).start (.node name) = (state, []) →
      (∀ i w s' new, (tasks env fs).provideValue state i w = some (s', new) → s' = state ∧ new = []) → False := by
    intro state hstart hquiet
    obtain ⟨i, hi⟩ := Requests.mem_start (fun s => s = state) (by rw [hstart])
      (fun s i w s' new hs => by subst hs; exact hquiet i w s' new) h
    rw [hstart] at hi
    cases hi
  cases htype' : (env.lookupNode name).type with
  | virtual =>
    refine hnone .virtualInputNode ?_ fun i w s' new hprovide => ?_
    · simp [tasks, start, startNode, hproducers, Ownership.BuildNode.isVirtual, htype']
    · cases hprovide
      exact ⟨rfl, rfl⟩
  | plain =>
    refine hnone (.fileInputNode name) ?_ fun i w s' new hprovide => ?_
    · simp [tasks, start, startNode, hproducers, Ownership.BuildNode.isVirtual, Ownership.BuildNode.isDirectory,
        BuildNode.isDirectoryStructure, htype']
    · cases hprovide
      exact ⟨rfl, rfl⟩
  | directory => exact htype .tree htype'
  | directoryStructure => exact htype .treeStructure htype'

variable {k : Key}

/-- A directory node requests its signature. -/
theorem requests_of_directoryNode (henv : Unproduced env) (htype : (env.lookupNode name).type = kind.nodeType)
    (h : Requests (tasks env fs) (.node name) k) : k = signatureOf env name kind := by
  have hproducers := henv.producers name
  have hpaths := henv.mustScanAfterPaths name
  cases kind with
  | tree =>
    have htype' : (env.lookupNode name).type = .directory := htype
    have hstart : (tasks env fs).start (.node name) =
        (.directoryInputNode { name := name }, performUnblockedRequest env name) := by
      simp [tasks, start, startNode, hproducers, Ownership.BuildNode.isVirtual, Ownership.BuildNode.isDirectory,
        htype', hpaths]
    -- with nothing to wait for, the signature is never requested again
    obtain ⟨i, hi⟩ := Requests.mem_start (fun s => ∃ task : DirectoryInputNodeTask S,
      s = .directoryInputNode task ∧ task.totalBlockingDeps = 0) (by rw [hstart]; exact ⟨_, rfl, rfl⟩) (by
        rintro s i w s' new ⟨task, rfl, htotal⟩ hprovide
        simp only [tasks, provideValue, htotal, Nat.add_one_ne_zero, if_false] at hprovide
        split at hprovide
        · cases hprovide
          exact ⟨⟨_, rfl, rfl⟩, rfl⟩
        · cases hprovide
          exact ⟨⟨_, rfl, rfl⟩, rfl⟩) h
    rw [hstart, performUnblockedRequest, mem_singleton] at hi
    exact (Prod.ext_iff.mp hi).2
  | treeStructure =>
    have htype' : (env.lookupNode name).type = .directoryStructure := htype
    have hstart : (tasks env fs).start (.node name) = (.directoryStructureInputNode .invalid,
        [(0, .directoryTreeStructureSignature (nodePath name) (env.lookupNode name).exclusionPatterns)]) := by
      simp [tasks, start, startNode, hproducers, Ownership.BuildNode.isVirtual, Ownership.BuildNode.isDirectory,
        BuildNode.isDirectoryStructure, htype']
    obtain ⟨i, hi⟩ := Requests.mem_start (fun s => ∃ w, s = .directoryStructureInputNode w)
      (by rw [hstart]; exact ⟨_, rfl⟩) (by
        rintro s i w s' new ⟨w', rfl⟩ hprovide
        cases hprovide
        exact ⟨⟨w, rfl⟩, rfl⟩) h
    rw [hstart, mem_singleton] at hi
    exact (Prod.ext_iff.mp hi).2

theorem requests_of_stat (h : Requests (tasks env fs) (.stat path) k) : k = .node path := by
  obtain ⟨i, hi⟩ := Requests.mem_start (fun s => s = .stat path) rfl (by
    rintro s i w s' new rfl hprovide
    cases hprovide
    exact ⟨rfl, rfl⟩) h
  exact (Prod.ext_iff.mp (mem_singleton.mp hi)).2

/-- A listing requests the node, and with exclusion patterns also the information on the path. -/
theorem requests_of_contentsKey (h : Requests (tasks env fs) (contentsKey path filters) k) :
    k = .node path ∨ k = .stat path := by
  unfold contentsKey at h
  split at h
  · obtain ⟨i, hi⟩ := Requests.mem_start (fun s => ∃ w, s = .directoryContents path w) ⟨_, rfl⟩ (by
      rintro s i w s' new ⟨w', rfl⟩ hprovide
      cases hprovide
      exact ⟨⟨_, rfl⟩, rfl⟩) h
    exact Or.inl (Prod.ext_iff.mp (mem_singleton.mp hi)).2
  · obtain ⟨i, hi⟩ := Requests.mem_start (fun s => ∃ w, s = .filteredDirectoryContents path filters w) ⟨_, rfl⟩ (by
      rintro s i w s' new ⟨w', rfl⟩ hprovide
      cases hprovide
      exact ⟨⟨_, rfl⟩, rfl⟩) h
    rcases mem_cons.mp hi with hi | hi
    · exact Or.inl (Prod.ext_iff.mp hi).2
    · exact Or.inr (Prod.ext_iff.mp (mem_singleton.mp hi)).2

/-- A signature requests the contents of its path, and for the names listed the nodes and signatures. -/
theorem requests_of_signatureKey (hproducers : (env.lookupNode path).producers = [])
    (h : Requests (tasks env fs) (signatureKey kind path filters) k) : k = contentsKey path filters ∨
      ∃ x ∈ listed env fs filters path, k = .node (FileSystem.append path x) ∨
        k = signatureKey kind (FileSystem.append path x) filters := by
  obtain ⟨s, pending, i, hrun, hmem⟩ := h
  obtain ⟨task, -, hsound, hperm⟩ := run_signature hrun
  have hlisted : ∀ child ∈ task.childResults, task.directoryValue.isSome = true →
      child.filename ∈ listed env fs filters path := by
    intro child hchild hsome
    obtain ⟨dv, hdv⟩ := Option.isSome_iff_exists.mp hsome
    obtain ⟨hcontents, hnames⟩ := hsound.contents dv hdv
    rw [← filenames_eq_listed (contents_of_evaluates hproducers hcontents) hnames]
    exact mem_map_of_mem hchild
  cases pending_of_mem hsound (hperm.mem_iff.mp hmem) with
  | contents _ _ hk =>
    rw [hsound.path_eq, hsound.filters_eq] at hk
    exact Or.inl hk
  | child before after child hsome hchildren _ _ hk =>
    rw [hsound.path_eq] at hk
    exact Or.inr ⟨child.filename, hlisted child (by simp [hchildren]) hsome, Or.inl hk⟩
  | signature before after child w hsome hchildren _ _ _ _ hk =>
    rw [hsound.kind_eq, hsound.path_eq, hsound.filters_eq] at hk
    exact Or.inr ⟨child.filename, hlisted child (by simp [hchildren]) hsome, Or.inr hk⟩

/-! ## Requests end -/

/-- The keys from which requests end; a path of slashes only is not among them. -/
inductive Grounded : Key → Prop where
  | node {name : Name} : Substantial name → Grounded (.node name)
  | stat {path : Path} : Substantial path → Grounded (.stat path)
  | contents {path : Path} {filters : List Name} : Substantial path → Grounded (contentsKey path filters)
  | signature {kind : SignatureKind} {path : Path} {filters : List Name} : Substantial path →
      Grounded (signatureKey kind path filters)

/-- Keys of paths with more slashes at the end come later; among the others, signatures by what is under them. -/
def rank (fs : FileSystem) : Key → Nat ×ₗ Nat
  | .node path | .command path => toLex (trailingSlashes path, 0)
  | .stat path => toLex (trailingSlashes path, 1)
  | .directoryContents path | .filteredDirectoryContents path _ => toLex (trailingSlashes path, 2)
  | .directoryTreeSignature path _ | .directoryTreeStructureSignature path _ =>
    toLex (trailingSlashes path, 3 + fs.height path)

theorem rank_contentsKey : rank fs (contentsKey path filters) = toLex (trailingSlashes path, 2) := by
  unfold contentsKey
  split <;> rfl

theorem rank_signatureKey :
    rank fs (signatureKey kind path filters) = toLex (trailingSlashes path, 3 + fs.height path) := by
  cases kind <;> rfl

theorem trailingSlashes_append {x : Name} (hx : x ∈ listed env fs filters path) :
    trailingSlashes (FileSystem.append path x) = 0 :=
  trailingSlashes_of_ne (getLast?_append_ne_slash path (proper_of_mem_listed hx))

/-- **Each request is for a key of less rank.** -/
theorem grounded_of_requests (henv : Unproduced env) (hslash : Unslashed env) {k' : Key} (hk : Grounded k)
    (h : Requests (tasks env fs) k k') : Grounded k' ∧ rank fs k' < rank fs k := by
  cases hk with
  | @node name hname =>
    by_cases htype : ∃ kind : SignatureKind, (env.lookupNode name).type = kind.nodeType
    · -- a directory node, whose name ends in a slash
      obtain ⟨kind, htype⟩ := htype
      have hlast : name.getLast? = some slash := by
        by_contra hne
        exact (hslash name hne).2 kind htype
      obtain ⟨p, rfl⟩ : ∃ p, name = p ++ [slash] := getLast?_eq_some_iff.mp hlast
      obtain ⟨hp, hsubstantial⟩ := hname.init
      rw [requests_of_directoryNode henv htype h, signatureOf, nodePath_concat hp, rank_signatureKey]
      refine ⟨.signature hsubstantial, ?_⟩
      show toLex _ < toLex (trailingSlashes (p ++ [slash]), 0)
      rw [trailingSlashes_concat, Prod.Lex.toLex_lt_toLex]
      exact Or.inl (Nat.lt_succ_self _)
    · exact absurd h (not_requests_of_input (henv.producers name) (not_exists.mp htype) k')
  | @stat path hpath =>
    rw [requests_of_stat h]
    refine ⟨.node hpath, ?_⟩
    show toLex (trailingSlashes path, 0) < toLex (trailingSlashes path, 1)
    rw [Prod.Lex.toLex_lt_toLex]
    exact Or.inr ⟨rfl, Nat.one_pos⟩
  | @contents path filters hpath =>
    rw [rank_contentsKey]
    rcases requests_of_contentsKey h with rfl | rfl
    · refine ⟨.node hpath, ?_⟩
      show toLex (trailingSlashes path, 0) < _
      rw [Prod.Lex.toLex_lt_toLex]
      exact Or.inr ⟨rfl, Nat.two_pos⟩
    · refine ⟨.stat hpath, ?_⟩
      show toLex (trailingSlashes path, 1) < _
      rw [Prod.Lex.toLex_lt_toLex]
      exact Or.inr ⟨rfl, Nat.one_lt_two⟩
  | @signature kind path filters hpath =>
    rw [rank_signatureKey]
    rcases requests_of_signatureKey (henv.producers path) h with rfl | ⟨x, hx, hk'⟩
    · refine ⟨.contents hpath, ?_⟩
      rw [rank_contentsKey, Prod.Lex.toLex_lt_toLex]
      refine Or.inr ⟨rfl, ?_⟩
      show 2 < 3 + fs.height path
      omega
    · have hsubstantial : Substantial (append path x) :=
        substantial_of_ne (getLast?_append_ne_slash path (proper_of_mem_listed hx))
      -- a path made for a name has no slash at the end, and less under it
      have hzero := trailingSlashes_append hx
      have hheight := height_append_lt (mem_listed.mp hx).1
      have hlt : ∀ m, m < 3 + fs.height path →
          toLex (trailingSlashes (append path x), m) < toLex (trailingSlashes path, 3 + fs.height path) := by
        intro m hm
        rw [hzero, Prod.Lex.toLex_lt_toLex]
        rcases Nat.eq_zero_or_pos (trailingSlashes path) with h0 | hpos
        · exact Or.inr ⟨h0.symm, hm⟩
        · exact Or.inl hpos
      rcases hk' with rfl | rfl
      · exact ⟨.node hsubstantial, hlt 0 (by omega)⟩
      · rw [rank_signatureKey]
        exact ⟨.signature hsubstantial, hlt _ (by omega)⟩

theorem finite_requests (henv : Unproduced env) (hk : Grounded k) :
    {k' | Requests (tasks env fs) k k'}.Finite := by
  cases hk with
  | @node name hname =>
    by_cases htype : ∃ kind : SignatureKind, (env.lookupNode name).type = kind.nodeType
    · obtain ⟨kind, htype⟩ := htype
      exact (Set.finite_singleton (signatureOf env name kind)).subset fun k' h => requests_of_directoryNode henv htype h
    · refine Set.Finite.subset Set.finite_empty fun k' h => ?_
      exact not_requests_of_input (henv.producers name) (not_exists.mp htype) k' h
  | @stat path hpath => exact (Set.finite_singleton (Key.node path)).subset fun k' h => requests_of_stat h
  | @contents path filters hpath =>
    exact (Set.toFinite {Key.node path, Key.stat path}).subset fun k' h => requests_of_contentsKey h
  | @signature kind path filters hpath =>
    have hnodes := ((listed env fs filters path).finite_toSet.image fun x => Key.node (append path x))
    have hsignatures := ((listed env fs filters path).finite_toSet.image fun x =>
      signatureKey kind (append path x) filters)
    refine ((Set.finite_singleton (contentsKey path filters)).union (hnodes.union hsignatures)).subset fun k' h => ?_
    rcases requests_of_signatureKey (henv.producers path) h with hk' | ⟨x, hx, hk' | hk'⟩
    · exact Or.inl hk'
    · exact Or.inr (Or.inl ⟨x, hx, hk'.symm⟩)
    · exact Or.inr (Or.inr ⟨x, hx, hk'.symm⟩)

variable (fs) in
/-- **Requests end** from every node whose name is not made of slashes only. -/
theorem wellFoundedFrom_node (henv : Unproduced env) (hslash : Unslashed env) (hname : Substantial name) :
    WellFoundedFrom (tasks env fs) (.node name) :=
  wellFoundedFrom_of_rank Grounded (rank fs) (fun _ _ hk h => grounded_of_requests henv hslash hk h)
    (fun _ hk => finite_requests henv hk) (.node hname)

/-! ## Values of directory nodes -/

theorem evaluates_directoryNode (henv : Unproduced env) (htype : (env.lookupNode name).type = kind.nodeType)
    (h : Evaluates (tasks env fs) (signatureOf env name kind) v) : Evaluates (tasks env fs) (.node name) v := by
  rw [evaluates_iff]
  cases kind with
  | tree => exact completes_directoryInput (henv.producers name) htype (henv.mustScanAfterPaths name) h
  | treeStructure => exact (completes_directoryStructureInput (henv.producers name) htype).mpr h

/-- Without exclusion patterns, the node of the path has to be a file node. -/
theorem exists_contents_of_plain (henv : Unproduced env) (htype : (env.lookupNode path).type = .plain)
    (kind : SignatureKind) : ∃ dv filenames, Evaluates (tasks env fs) (contentsKey path []) dv ∧
      filenamesOf kind [] dv = some filenames := by
  have hnode : Evaluates (tasks env fs) (.node path) (fileValue (fs.getFileInfo (nodePath path))) :=
    (evaluates_fileInput (henv.producers path) htype).mpr rfl
  have hlist : ∀ dv, directoryContentsValue fs path (fileValue (fs.getFileInfo (nodePath path))) = some dv →
      Evaluates (tasks env fs) (contentsKey path []) dv :=
    fun dv hdv => evaluates_iff.mpr (completes_directoryContents.mpr ⟨_, hnode, hdv⟩)
  unfold fileValue at hlist
  split at hlist
  · refine ⟨.missingInput, [], hlist _ rfl, ?_⟩
    cases kind <;> rfl
  · refine ⟨.directoryContents (fs.getFileInfo (nodePath path)) (getContents fs path), getContents fs path,
      hlist _ rfl, ?_⟩
    cases kind <;> rfl

/-- With exclusion patterns, a structure signature fails on a file. -/
theorem exists_contents_of_filtered {w : Value S} (hw : Evaluates (tasks env fs) (.node path) w)
    (hfilters : filters ≠ []) (hkind : kind = .treeStructure →
      (fs.getFileInfo path).isMissing = true ∨ (fs.getFileInfo path).isDirectory = true) :
    ∃ dv filenames, Evaluates (tasks env fs) (contentsKey path filters) dv ∧
      filenamesOf kind filters dv = some filenames := by
  have hnames : (filenamesOf kind filters
      (filteredDirectoryContentsValue env fs path filters (fileValue (fs.getFileInfo path)))).isSome = true := by
    cases kind with
    | tree => exact filenamesOf_tree_isSome filters _
    | treeStructure => exact (filenamesOf_filtered_isSome_iff env filters).mpr (hkind rfl)
  obtain ⟨filenames, hnames⟩ := Option.isSome_iff_exists.mp hnames
  rw [contentsKey, if_neg hfilters]
  exact ⟨_, filenames, evaluates_filtered filters hw, hnames⟩

/-- A directory node has a value if the contents of its path can be listed. -/
theorem exists_evaluates_directoryNode (henv : Unproduced env) (hslash : Unslashed env) (hpath : path ≠ [])
    (htype : (env.lookupNode (path ++ [slash])).type = kind.nodeType)
    (hcontents : ∃ dv filenames, Evaluates (tasks env fs)
        (contentsKey path (env.lookupNode (path ++ [slash])).exclusionPatterns) dv ∧
      filenamesOf kind (env.lookupNode (path ++ [slash])).exclusionPatterns dv = some filenames) :
    ∃ v, Evaluates (tasks env fs) (.node (path ++ [slash])) v := by
  obtain ⟨v, hv⟩ := exists_evaluates_signature kind hslash (henv.producers path) hcontents
  refine ⟨v, evaluates_directoryNode henv htype ?_⟩
  rw [signatureOf, nodePath_concat hpath]
  exact hv

/-- Conversely, what a value of a directory node says of its name and of the contents of its path. -/
theorem contents_of_directoryNode (henv : Unproduced env) (htype : (env.lookupNode name).type = kind.nodeType)
    (h : Evaluates (tasks env fs) (.node name) v) : ∃ p, p ≠ [] ∧ name = p ++ [slash] ∧
      ∃ dv filenames, Evaluates (tasks env fs) (contentsKey p (env.lookupNode name).exclusionPatterns) dv ∧
        filenamesOf kind (env.lookupNode name).exclusionPatterns dv = some filenames := by
  obtain ⟨p, hp, rfl⟩ := exists_concat_of_nodePath_ne fun hpath =>
    not_evaluates_of_nodePath_eq (henv.producers name) htype hpath v h
  have hsignature := evaluates_signature_of_node kind (henv.producers _) htype h
  rw [signatureOf, nodePath_concat hp] at hsignature
  obtain ⟨dv, task, hanswered, -⟩ := completes_signature (evaluates_iff.mp hsignature)
  exact ⟨p, hp, rfl, dv, _, hanswered.contents, hanswered.filenames⟩

end

/-! ## Declared directories -/

/-- The signature that the node is declared to stand for. -/
def Declaration.kind (d : Declaration) : SignatureKind :=
  if d.way = .isDirectoryStructure then .treeStructure else .tree

theorem Declaration.node_type (d : Declaration) (h : d.way ≠ .typeDirectory) : d.node.type = d.kind.nodeType := by
  unfold Declaration.kind Declaration.node Declaration.nodeType
  cases hway : d.way with
  | typeDirectory => exact absurd hway h
  | byName => rfl
  | isDirectory => rfl
  | isDirectoryStructure => rfl

namespace Description

variable (hash : TreeHash S) (filenameMatch : Name → Name → Bool) (D : Description) (fs : FileSystem)

def names : List Name := D.declarations.map Declaration.name

/-- What the tasks read of the build file. -/
def env : Env S := .ofNodes hash filenameMatch D.nodes

/-- Requests from node keys on are acyclic and finite, and the declared nodes have the signatures of their paths as
    values. A node that is not declared, but whose name ends in a slash, is like one that is declared by its name. -/
structure DirectoriesSound : Prop where
  wellFounded : ∀ n, n ∈ D.names ∨ n.getLast? ≠ some slash →
    WellFoundedFrom (tasks (D.env hash filenameMatch) fs) (.node n)
  evaluates : ∀ d ∈ D.declarations, ∃ v, Evaluates (tasks (D.env hash filenameMatch) fs) (.node d.name) v
  signature : ∀ d ∈ D.declarations, ∀ v, Evaluates (tasks (D.env hash filenameMatch) fs) (.node d.name) v →
    Evaluates (tasks (D.env hash filenameMatch) fs)
      (signatureKey d.kind (nodePath d.name) d.exclusionPatterns) v

/-- The node is named after a path `p` that can be listed: without exclusion patterns the node of `p` is a file node;
    with them it is one or a directory node that is named after such a path itself. -/
structure Fine (d : Declaration) (p : Path) : Prop where
  way : d.way ≠ .typeDirectory
  ne_nil : p ≠ []
  name : d.name = p ++ [slash]
  plain : d.exclusionPatterns = [] → (createNode p).type = .plain
  nested : d.exclusionPatterns ≠ [] → p.getLast? = some slash →
    p ∈ D.names ∨ ∃ q, q ≠ [] ∧ p = q ++ [slash] ∧ (createNode q).type = .plain
  directory : d.exclusionPatterns ≠ [] → d.way = .isDirectoryStructure →
    (fs.getFileInfo p).isMissing = true ∨ (fs.getFileInfo p).isDirectory = true

variable {hash filenameMatch D fs}

theorem lookupNode_of_mem {d : Declaration} (hd : d ∈ D.declarations) :
    (D.env hash filenameMatch).lookupNode d.name = d.node := by
  show (D.nodes d.name).getD (createNode d.name) = d.node
  rw [D.parse_nodesSection.2.1 d hd]
  rfl

variable {n : Name}

theorem lookupNode_of_not_mem (hn : n ∉ D.names) :
    (D.env hash filenameMatch).lookupNode n = createNode n := by
  show (D.nodes n).getD (createNode n) = createNode n
  rw [D.parse_nodesSection.2.2 n hn]
  rfl

theorem exists_of_mem_names (hn : n ∈ D.names) : ∃ d ∈ D.declarations, d.name = n := mem_map.mp hn

theorem createNode_mustScanAfterPaths (n : Name) : (createNode n).mustScanAfterPaths = [] := by
  unfold createNode
  split
  · rfl
  · split <;> rfl

theorem createNode_exclusionPatterns (n : Name) : (createNode n).exclusionPatterns = [] := by
  unfold createNode
  split
  · rfl
  · split <;> rfl

theorem createNode_of_slash (h : n.getLast? = some slash) : (createNode n).type = .directory := by
  rw [createNode, if_pos h]

/-- A file node that is created for a name has a name without a slash at the end. -/
theorem getLast?_ne_of_plain (h : (createNode n).type = .plain) : n.getLast? ≠ some slash := by
  intro hslash
  rw [createNode_of_slash hslash] at h
  cases h

variable (hash filenameMatch D) in
theorem unproduced_env : Unproduced (D.env hash filenameMatch) where
  producers := fun n => producers_parseNodesMapping D.parse_nodesSection.1 createNode_producers n
  mustScanAfterPaths := fun n => by
    by_cases hn : n ∈ D.names
    · obtain ⟨d, hd, rfl⟩ := exists_of_mem_names hn
      rw [lookupNode_of_mem hd]
      rfl
    · rw [lookupNode_of_not_mem hn]
      exact createNode_mustScanAfterPaths n

/-! ### Fine declarations are enough -/

section

variable (hfine : ∀ d ∈ D.declarations, ∃ p, D.Fine fs d p)

include hfine

variable {n : Name}

theorem getLast?_of_mem_names (hn : n ∈ D.names) : n.getLast? = some slash := by
  obtain ⟨d, hd, rfl⟩ := exists_of_mem_names hn
  obtain ⟨p, hp⟩ := hfine d hd
  rw [hp.name]
  simp

theorem not_mem_names_of_plain (h : (createNode n).type = .plain) : n ∉ D.names :=
  fun hn => getLast?_ne_of_plain h (getLast?_of_mem_names hfine hn)

theorem unslashed_env : Unslashed (D.env hash filenameMatch) := by
  intro n hn
  have hnot : n ∉ D.names := fun hmem => hn (getLast?_of_mem_names hfine hmem)
  rw [lookupNode_of_not_mem hnot]
  exact ⟨createNode_producers n, createNode_type_ne hn⟩

/-- No declared name is made of slashes only. -/
theorem substantial_of_mem_names (hn : n ∈ D.names) : Substantial n := by
  -- a path that is declared itself is shorter
  induction hlength : n.length using Nat.strong_induction_on generalizing n with
  | _ m ih =>
    obtain ⟨d, hd, rfl⟩ := exists_of_mem_names hn
    obtain ⟨p, hp⟩ := hfine d hd
    rw [hp.name]
    refine substantial_concat hp.ne_nil ?_
    by_cases hpatterns : d.exclusionPatterns = []
    · exact substantial_of_ne (getLast?_ne_of_plain (hp.plain hpatterns))
    · by_cases hslash : p.getLast? = some slash
      · rcases hp.nested hpatterns hslash with hmem | ⟨q, hq, rfl, hplain⟩
        · refine ih p.length ?_ hmem rfl
          rw [← hlength, hp.name]
          simp
        · exact substantial_concat hq (substantial_of_ne (getLast?_ne_of_plain hplain))
      · exact substantial_of_ne hslash

theorem lookupNode_of_plain (h : (createNode n).type = .plain) :
    ((D.env hash filenameMatch).lookupNode n).type = .plain := by
  rw [lookupNode_of_not_mem (not_mem_names_of_plain hfine h)]
  exact h

/-- A directory node that is not declared has a value if its path has a file node. -/
theorem exists_evaluates_undeclared {q : Path} (hq : q ≠ []) (hplain : (createNode q).type = .plain)
    (hn : q ++ [slash] ∉ D.names) :
    ∃ v, Evaluates (tasks (D.env hash filenameMatch) fs) (.node (q ++ [slash])) v := by
  have hslash : (q ++ [slash]).getLast? = some slash := by simp
  have htype : ((D.env hash filenameMatch).lookupNode (q ++ [slash])).type = SignatureKind.tree.nodeType := by
    rw [lookupNode_of_not_mem hn]
    exact createNode_of_slash hslash
  refine exists_evaluates_directoryNode (unproduced_env hash filenameMatch D) (unslashed_env hfine) hq htype ?_
  rw [lookupNode_of_not_mem hn, createNode_exclusionPatterns]
  exact exists_contents_of_plain (unproduced_env hash filenameMatch D) (lookupNode_of_plain hfine hplain) .tree

theorem exists_evaluates_of_fine (hn : n ∈ D.names) :
    ∃ v, Evaluates (tasks (D.env hash filenameMatch) fs) (.node n) v := by
  induction hlength : n.length using Nat.strong_induction_on generalizing n with
  | _ m ih =>
    obtain ⟨d, hd, rfl⟩ := exists_of_mem_names hn
    obtain ⟨p, hp⟩ := hfine d hd
    have hnode : (D.env hash filenameMatch).lookupNode (p ++ [slash]) = d.node := hp.name ▸ lookupNode_of_mem hd
    rw [hp.name]
    refine exists_evaluates_directoryNode (unproduced_env hash filenameMatch D) (unslashed_env hfine) hp.ne_nil
      (hnode ▸ d.node_type hp.way) ?_
    rw [hnode]
    show ∃ dv filenames, Evaluates _ (contentsKey p d.exclusionPatterns) dv ∧
      filenamesOf d.kind d.exclusionPatterns dv = some filenames
    by_cases hpatterns : d.exclusionPatterns = []
    · rw [hpatterns]
      exact exists_contents_of_plain (unproduced_env hash filenameMatch D)
        (lookupNode_of_plain hfine (hp.plain hpatterns)) d.kind
    · -- the node of the path has a value
      have hvalue : ∃ w, Evaluates (tasks (D.env hash filenameMatch) fs) (.node p) w := by
        by_cases hmem : p ∈ D.names
        · refine ih p.length ?_ hmem rfl
          rw [← hlength, hp.name]
          simp
        · by_cases hslash : p.getLast? = some slash
          · obtain ⟨q, hq, rfl, hplain⟩ := (hp.nested hpatterns hslash).resolve_left hmem
            exact exists_evaluates_undeclared hfine hq hplain hmem
          · exact ⟨_, (unslashed_env hfine).evaluates_node hslash⟩
      obtain ⟨w, hw⟩ := hvalue
      refine exists_contents_of_filtered hw hpatterns fun hkind => hp.directory hpatterns ?_
      unfold Declaration.kind at hkind
      split at hkind
      · rename_i hway
        exact hway
      · cases hkind

theorem sound_of_fine : D.DirectoriesSound hash filenameMatch fs where
  wellFounded := fun n hn => by
    refine wellFoundedFrom_node fs (unproduced_env hash filenameMatch D) (unslashed_env hfine) ?_
    rcases hn with hmem | hslash
    · exact substantial_of_mem_names hfine hmem
    · exact substantial_of_ne hslash
  evaluates := fun d hd => exists_evaluates_of_fine hfine (mem_map_of_mem hd)
  signature := fun d hd v hv => by
    obtain ⟨p, hp⟩ := hfine d hd
    have htype : ((D.env hash filenameMatch).lookupNode d.name).type = d.kind.nodeType := by
      rw [lookupNode_of_mem hd]
      exact d.node_type hp.way
    have hsignature := evaluates_signature_of_node d.kind ((unproduced_env hash filenameMatch D).producers _) htype hv
    rw [signatureOf, lookupNode_of_mem hd] at hsignature
    exact hsignature

end

/-! ### Fine declarations are needed -/

section

variable (hsound : D.DirectoriesSound hash filenameMatch fs)

include hsound

variable {d : Declaration}

/-- `type: directory` makes a file node, whose value is no signature. -/
theorem way_ne_typeDirectory (hd : d ∈ D.declarations) : d.way ≠ .typeDirectory := by
  intro hway
  obtain ⟨v, hv⟩ := hsound.evaluates d hd
  have hsignature := isSignature_of_evaluates (hsound.signature d hd v hv)
  have htype : ((D.env hash filenameMatch).lookupNode d.name).type = .plain := by
    rw [lookupNode_of_mem hd]
    show d.nodeType = .plain
    rw [Declaration.nodeType, hway]
  rw [(evaluates_fileInput ((unproduced_env hash filenameMatch D).producers _) htype).mp hv, fileValue] at hsignature
  split at hsignature <;> cases hsignature

theorem lookupNode_type_of_sound (hd : d ∈ D.declarations) :
    ((D.env hash filenameMatch).lookupNode d.name).type = d.kind.nodeType := by
  rw [lookupNode_of_mem hd]
  exact d.node_type (way_ne_typeDirectory hsound hd)

/-- A file node is one that is created for its name. -/
theorem createNode_of_plain {n : Name} (h : ((D.env hash filenameMatch).lookupNode n).type = .plain) :
    (createNode n).type = .plain := by
  by_cases hn : n ∈ D.names
  · obtain ⟨d, hd, rfl⟩ := exists_of_mem_names hn
    rw [lookupNode_type_of_sound hsound hd] at h
    cases hkind : d.kind <;> rw [hkind] at h <;> cases h
  · rw [lookupNode_of_not_mem hn] at h
    exact h

/-- A path is listed without exclusion patterns only if its node is a file node. -/
theorem createNode_of_contents {p : Path} {dv : Value S}
    (h : Evaluates (tasks (D.env hash filenameMatch) fs) (contentsKey p []) dv) : (createNode p).type = .plain := by
  refine createNode_of_plain hsound ?_
  cases contents_of_evaluates ((unproduced_env hash filenameMatch D).producers p) h with
  | missing htype => exact htype rfl
  | file hfilters => exact absurd rfl hfilters
  | contents _ htype => exact htype
  | filtered hfilters => exact absurd rfl hfilters

theorem fine_of_sound (hd : d ∈ D.declarations) : ∃ p, D.Fine fs d p := by
  have henv := unproduced_env hash filenameMatch D
  have htype := lookupNode_type_of_sound hsound hd
  obtain ⟨v, hv⟩ := hsound.evaluates d hd
  obtain ⟨p, hp, hname, dv, filenames, hdv, hnames⟩ := contents_of_directoryNode henv htype hv
  rw [lookupNode_of_mem hd] at hdv hnames
  refine ⟨p, way_ne_typeDirectory hsound hd, hp, hname, fun hpatterns => ?_, fun hpatterns hslash => ?_,
    fun hpatterns hway => ?_⟩
  · have hdv' : Evaluates (tasks (D.env hash filenameMatch) fs) (contentsKey p []) dv := by
      rw [← hpatterns]
      exact hdv
    exact createNode_of_contents hsound hdv'
  · -- the node of the path has a value, for which its own path has to be listed
    by_cases hmem : p ∈ D.names
    · exact Or.inl hmem
    · obtain ⟨w, hw⟩ := exists_answer_of_completes_contents (evaluates_iff.mp hdv)
      have htype' : ((D.env hash filenameMatch).lookupNode p).type = SignatureKind.tree.nodeType := by
        rw [lookupNode_of_not_mem hmem]
        exact createNode_of_slash hslash
      obtain ⟨q, hq, hp', dv', -, hdv', -⟩ := contents_of_directoryNode henv htype' hw
      rw [lookupNode_of_not_mem hmem, createNode_exclusionPatterns] at hdv'
      exact Or.inr ⟨q, hq, hp', createNode_of_contents hsound hdv'⟩
  · have hkind : d.kind = .treeStructure := if_pos hway
    rw [hkind] at hnames
    cases contents_of_evaluates (henv.producers p) hdv with
    | missing _ hmissing => exact Or.inl hmissing
    | file => cases hnames
    | contents hfilters => exact absurd hfilters hpatterns
    | filtered _ hdirectory => exact Or.inr hdirectory

end

variable (hash filenameMatch D fs) in
/-- **Declared directories** have the signatures of their paths as values, and no requests go around in circles, if and
    only if all of the declarations are fine. -/
theorem declared_directories_sound_iff :
    D.DirectoriesSound hash filenameMatch fs ↔ ∀ d ∈ D.declarations, ∃ p, D.Fine fs d p :=
  ⟨fun hsound _ hd => fine_of_sound hsound hd, sound_of_fine⟩

/-- The node `d`, with `is-directory: true`. -/
def overridden : Description where
  declarations := [{ name := [100], way := .isDirectory, slash_of_way := by rintro (h | h) <;> cases h }]
  nodup := nodup_singleton _

/-- The node requests its signature, this the contents of `d`, and these the node `d` again. -/
theorem overridden_requests_itself :
    Relation.TransGen (Requests (tasks (overridden.env noNodes.hash noNodes.filenameMatch) singleFile))
        (.node [100]) (.node [100]) ∧
      ¬overridden.DirectoriesSound noNodes.hash noNodes.filenameMatch singleFile := by
  have hsignature : Requests (tasks (overridden.env noNodes.hash noNodes.filenameMatch) singleFile) (.node [100])
      (signatureKey .tree [100] []) := Requests.of_start (i := 0) mem_cons_self
  have hcycle : Relation.TransGen (Requests (tasks (overridden.env noNodes.hash noNodes.filenameMatch) singleFile))
      (.node [100]) (.node [100]) :=
    .tail (.tail (.single hsignature) requests_contents) requests_of_directoryContents
  exact ⟨hcycle, fun hsound => (hsound.wellFounded [100] (Or.inl (by decide))).acyclic _ .refl hcycle⟩

end Description

end DirectoryTasks

end Builra
