import Builra.BuildSystem.DirectoryRuns

namespace Builra

open Option FileSystem

/-!
# `BuildSystem.DirectoryValues` — the values of nodes and directories without producers

What `Evaluates` gives for the keys of paths that no command produces. Of the node of a path that does not end in a
slash, the type decides everything: a virtual node or a file has a value at once, and a directory node requests the
signature of the path, which requests its contents, which request the node again.
-/

open FileSystem (Name Path slash)
open Demand

namespace DirectoryTasks

open SignatureTask

variable {S : Type} {env : Env S} {fs : FileSystem} {path : Path} {filters : List Name} {kind : SignatureKind}
  {name : Name} {v : Value S}

/-! ## Nodes -/

theorem evaluates_virtualInput (hproducers : (env.lookupNode name).producers = [])
    (htype : (env.lookupNode name).type = .virtual) :
    Evaluates (tasks env fs) (.node name) v ↔ v = .virtualInput :=
  evaluates_iff.trans (completes_virtualInput hproducers htype)

theorem evaluates_fileInput (hproducers : (env.lookupNode name).producers = [])
    (htype : (env.lookupNode name).type = .plain) :
    Evaluates (tasks env fs) (.node name) v ↔ v = fileValue (fs.getFileInfo (nodePath name)) :=
  evaluates_iff.trans (completes_fileInput hproducers htype)

/-- The signature that a directory node stands for. -/
def signatureOf (env : Env S) (name : Name) (kind : SignatureKind) : Key :=
  signatureKey kind (nodePath name) (env.lookupNode name).exclusionPatterns

/-- The type of a node that stands for a signature of the kind. -/
def SignatureKind.nodeType : SignatureKind → Ownership.NodeType
  | .tree => .directory
  | .treeStructure => .directoryStructure

theorem answers_of_completes_directoryNode {answers : Key → Value S → Prop}
    (hproducers : (env.lookupNode name).producers = []) (htype : (env.lookupNode name).type = kind.nodeType)
    (h : Completes (tasks env fs) answers (.node name) v) : answers (signatureOf env name kind) v := by
  cases kind with
  | tree => exact answers_of_completes_directoryInput hproducers htype h
  | treeStructure => exact (completes_directoryStructureInput hproducers htype).mp h

variable (kind) in
/-- **A directory node has the value of its signature.** -/
theorem evaluates_signature_of_node (hproducers : (env.lookupNode name).producers = [])
    (htype : (env.lookupNode name).type = kind.nodeType) (h : Evaluates (tasks env fs) (.node name) v) :
    Evaluates (tasks env fs) (signatureOf env name kind) v :=
  answers_of_completes_directoryNode hproducers htype (evaluates_iff.mp h)

/-- The values of signature tasks. -/
inductive Value.IsSignature : Value S → Prop where
  | tree (signature : S) : IsSignature (.directoryTreeSignature signature)
  | treeStructure (signature : S) : IsSignature (.directoryTreeStructureSignature signature)

theorem isSignature_inputsAvailable (hash : TreeHash S) (task : SignatureTask S) :
    (task.inputsAvailable hash).IsSignature := by
  unfold SignatureTask.inputsAvailable
  split
  · exact .tree _
  · exact .treeStructure _

theorem isSignature_of_evaluates (h : Evaluates (tasks env fs) (signatureKey kind path filters) v) :
    v.IsSignature := by
  obtain ⟨dv, task, -, rfl⟩ := completes_signature (evaluates_iff.mp h)
  exact isSignature_inputsAvailable env.hash task

theorem nodePath_of_getLast?_ne (h : name.getLast? ≠ some slash) : nodePath name = name :=
  if_neg fun hslash => h hslash.1

/-- The listing of a path completes only after its node. -/
theorem exists_answer_of_completes_contents {answers : Key → Value S → Prop}
    (h : Completes (tasks env fs) answers (contentsKey path filters) v) : ∃ w, answers (.node path) w := by
  unfold contentsKey at h
  split at h
  · obtain ⟨w, hw, -⟩ := completes_directoryContents.mp h
    exact ⟨w, hw⟩
  · exact (completes_filteredDirectoryContents.mp h).1

/-- **The cycle**: a directory node whose signature is the one of its own name has no value. -/
theorem not_evaluates_of_nodePath_eq (hproducers : (env.lookupNode name).producers = [])
    (htype : (env.lookupNode name).type = kind.nodeType) (hpath : nodePath name = name) (v : Value S) :
    ¬Evaluates (tasks env fs) (.node name) v := by
  refine not_evaluates_of_cycle (C := fun k => k = .node name ∨
    k = signatureKey kind name (env.lookupNode name).exclusionPatterns ∨
      k = contentsKey name (env.lookupNode name).exclusionPatterns) ?_ (Or.inl rfl) v
  rintro k answers v (rfl | rfl | rfl) hcompletes
  · have hanswer := answers_of_completes_directoryNode hproducers htype hcompletes
    rw [signatureOf, hpath] at hanswer
    exact ⟨_, v, Or.inr (Or.inl rfl), hanswer⟩
  · obtain ⟨dv, task, hanswered, -⟩ := completes_signature hcompletes
    exact ⟨_, dv, Or.inr (Or.inr rfl), hanswered.contents⟩
  · obtain ⟨w, hw⟩ := exists_answer_of_completes_contents hcompletes
    exact ⟨_, w, Or.inl rfl, hw⟩

/-- The value of a node that is no directory node. -/
def inputValue (env : Env S) (fs : FileSystem) (name : Name) : Value S :=
  if (env.lookupNode name).isVirtual then .virtualInput else fileValue (fs.getFileInfo (nodePath name))

theorem evaluates_inputValue_iff (hproducers : (env.lookupNode name).producers = [])
    (htype : ∀ kind : SignatureKind, (env.lookupNode name).type ≠ kind.nodeType) :
    Evaluates (tasks env fs) (.node name) v ↔ v = inputValue env fs name := by
  unfold inputValue Ownership.BuildNode.isVirtual
  cases htype' : (env.lookupNode name).type with
  | virtual => simpa using evaluates_virtualInput hproducers htype'
  | plain => simpa using evaluates_fileInput hproducers htype'
  | directory => exact absurd htype' (htype .tree)
  | directoryStructure => exact absurd htype' (htype .treeStructure)

/-- **The value of a node whose name does not end in a slash.** -/
theorem eq_inputValue_of_evaluates (hproducers : (env.lookupNode name).producers = [])
    (hname : name.getLast? ≠ some slash) (h : Evaluates (tasks env fs) (.node name) v) :
    v = inputValue env fs name := by
  refine (evaluates_inputValue_iff hproducers fun kind htype => ?_).mp h
  exact not_evaluates_of_nodePath_eq hproducers htype (nodePath_of_getLast?_ne hname) v h

/-! ## Listings -/

/-- The names that a listing of the path has. -/
def listed (env : Env S) (fs : FileSystem) (filters : List Name) (path : Path) : List Name :=
  if filters = [] then getContents fs path else getFilteredContents env fs path filters

def excluded (env : Env S) (filters : List Name) (x : Name) : Bool :=
  filters.any fun pattern => env.filenameMatch pattern x

theorem mem_listed {x : Name} :
    x ∈ listed env fs filters path ↔ x ∈ fs.directoryIterator path ∧ excluded env filters x = false := by
  unfold listed
  split
  · rename_i h
    simp [getContents, excluded, h]
  · simp [getFilteredContents, excluded]

theorem proper_of_mem_listed {x : Name} (hx : x ∈ listed env fs filters path) : FileSystem.ProperName x :=
  proper_of_mem (mem_listed.mp hx).1

theorem listed_nil (h : fs.directoryIterator path = []) : listed env fs filters path = [] := by
  rw [List.eq_nil_iff_forall_not_mem]
  intro x hx
  have := (mem_listed.mp hx).1
  simp [h] at this

/-- Where a path leads, the path of its node leads too. -/
theorem locate_nodePath {q : List Name} (h : fs.locate path = some q) : fs.locate (nodePath path) = some q := by
  unfold nodePath
  split
  · rename_i hslash
    obtain ⟨init, rfl⟩ : ∃ init, path = init ++ [slash] := List.getLast?_eq_some_iff.mp hslash.1
    have hinit : init ≠ [] := by
      rintro rfl
      exact hslash.2 rfl
    rw [locate_of_slash hinit] at h
    rw [List.dropLast_concat]
    cases hlocate : fs.locate init with
    | none => simp [hlocate, enter] at h
    | some q' =>
      obtain ⟨e, he⟩ := exists_entry_of_locate hlocate
      simp only [hlocate, enter, he, bind_eq_bind, bind_some, true_or, if_true] at h
      split at h
      · cases h
      · exact h
  · exact h

theorem getFileInfo_nodePath (h : (fs.getFileInfo path).isMissing = false) :
    fs.getFileInfo (nodePath path) = fs.getFileInfo path := by
  rw [← Bool.not_eq_true, ← locate_eq_none_iff] at h
  obtain ⟨q, hq⟩ := ne_none_iff_exists'.mp h
  unfold getFileInfo
  rw [hq, locate_nodePath hq]

theorem isMissing_of_nodePath (h : (fs.getFileInfo (nodePath path)).isMissing = true) :
    (fs.getFileInfo path).isMissing = true := by
  rw [← locate_eq_none_iff] at h ⊢
  cases hlocate : fs.locate path with
  | none => rfl
  | some q =>
    rw [locate_nodePath hlocate] at h
    cases h

theorem listed_of_isMissing (h : (fs.getFileInfo path).isMissing = true) : listed env fs filters path = [] :=
  listed_nil (directoryIterator_of_isMissing h)

/-- What the contents of a path can be. -/
inductive Contents (env : Env S) (fs : FileSystem) (path : Path) (filters : List Name) : Value S → Prop where
  | missing : (filters = [] → (env.lookupNode path).type = .plain) → (fs.getFileInfo path).isMissing = true →
      Contents env fs path filters .missingInput
  | file : filters ≠ [] → (fs.getFileInfo path).isMissing = false → (fs.getFileInfo path).isDirectory = false →
      Contents env fs path filters (.existingInput (fs.getFileInfo path))
  | contents : filters = [] → (env.lookupNode path).type = .plain →
      (fs.getFileInfo (nodePath path)).isMissing = false →
      Contents env fs path filters
        (.directoryContents (fs.getFileInfo (nodePath path)) (listed env fs filters path))
  | filtered : filters ≠ [] → (fs.getFileInfo path).isDirectory = true →
      Contents env fs path filters (.filteredDirectoryContents (listed env fs filters path))

/-- **The contents of a path without producers.** -/
theorem contents_of_evaluates (hproducers : (env.lookupNode path).producers = [])
    (h : Evaluates (tasks env fs) (contentsKey path filters) v) : Contents env fs path filters v := by
  unfold contentsKey at h
  split at h
  · -- a value that is not for a file is not accepted
    rename_i hfilters
    obtain ⟨w, hw, hv⟩ := completes_directoryContents.mp (evaluates_iff.mp h)
    have hlisted : getContents fs path = listed env fs filters path := by rw [listed, if_pos hfilters]
    cases htype : (env.lookupNode path).type with
    | virtual =>
      rw [(evaluates_virtualInput hproducers htype).mp hw] at hv
      cases hv
    | directory =>
      have hsignature := isSignature_of_evaluates (evaluates_signature_of_node .tree hproducers htype hw)
      cases hsignature <;> cases hv
    | directoryStructure =>
      have hsignature := isSignature_of_evaluates (evaluates_signature_of_node .treeStructure hproducers htype hw)
      cases hsignature <;> cases hv
    | plain =>
      rw [(evaluates_fileInput hproducers htype).mp hw, fileValue] at hv
      split at hv
      · rename_i hmissing
        cases hv
        exact .missing (fun _ => htype) (isMissing_of_nodePath hmissing)
      · rename_i hmissing
        cases hv
        rw [hlisted]
        exact .contents hfilters htype (by simpa using hmissing)
  · rename_i hfilters
    obtain ⟨-, x, hx, rfl⟩ := completes_filteredDirectoryContents.mp (evaluates_iff.mp h)
    have hlisted : getFilteredContents env fs path filters = listed env fs filters path := by
      rw [listed, if_neg hfilters]
    rw [(completes_stat.mp (evaluates_iff.mp hx)).2, fileValue]
    split
    · rename_i hmissing
      exact .missing (fun h => absurd h hfilters) hmissing
    · rename_i hmissing
      cases hdirectory : (fs.getFileInfo path).isDirectory with
      | true =>
        simp only [filteredDirectoryContentsValue, hdirectory, if_true, hlisted]
        exact .filtered hfilters hdirectory
      | false =>
        simp only [filteredDirectoryContentsValue, hdirectory]
        exact .file hfilters (by simpa using hmissing) hdirectory

theorem filenamesOf_tree_of_other (hcontents : v.isDirectoryContents = false)
    (hfiltered : v.isFilteredDirectoryContents = false) : filenamesOf .tree filters v = some [] := by
  refine if_pos ?_
  by_cases h : filters = []
  · exact Or.inl ⟨h, hcontents⟩
  · exact Or.inr ⟨h, hfiltered⟩

/-- The children of a signature task are the names listed. -/
theorem filenames_eq_listed (hcontents : Contents env fs path filters v) {filenames : List Name}
    (h : filenamesOf kind filters v = some filenames) : filenames = listed env fs filters path := by
  cases hcontents with
  | missing _ hmissing =>
    rw [listed_of_isMissing hmissing]
    cases kind with
    | tree =>
      rw [filenamesOf_tree_of_other rfl rfl] at h
      exact (some.inj h).symm
    | treeStructure => exact (some.inj h).symm
  | file hfilters _ hfile =>
    rw [listed_nil (directoryIterator_of_file hfile)]
    cases kind with
    | tree =>
      rw [filenamesOf_tree_of_other rfl rfl] at h
      exact (some.inj h).symm
    | treeStructure => cases h
  | contents hfilters =>
    cases kind with
    | tree =>
      rw [filenamesOf, if_neg (by simp [hfilters, Value.isDirectoryContents])] at h
      exact (some.inj h).symm
    | treeStructure => exact (some.inj h).symm
  | filtered hfilters =>
    cases kind with
    | tree =>
      rw [filenamesOf, if_neg (by simp [hfilters, Value.isFilteredDirectoryContents])] at h
      exact (some.inj h).symm
    | treeStructure => exact (some.inj h).symm

/-! ## Signatures have values -/

/-- The nodes of the names without a slash at the end are files or virtual nodes without producers. -/
def Unslashed (env : Env S) : Prop :=
  ∀ name : Name, name.getLast? ≠ some slash →
    (env.lookupNode name).producers = [] ∧ ∀ kind : SignatureKind, (env.lookupNode name).type ≠ kind.nodeType

theorem createNode_type_ne {name : Name} (hname : name.getLast? ≠ some slash) (kind : SignatureKind) :
    (createNode name).type ≠ kind.nodeType := by
  rw [createNode, if_neg hname]
  split <;> cases kind <;> simp [SignatureKind.nodeType]

theorem Unslashed.evaluates_node (h : Unslashed env) (hname : name.getLast? ≠ some slash) :
    Evaluates (tasks env fs) (.node name) (inputValue env fs name) :=
  (evaluates_inputValue_iff (h name hname).1 (h name hname).2).mpr rfl

variable (filters) in
/-- With exclusion patterns, a listing needs no more of the node than that it has a value. -/
theorem evaluates_filtered {w : Value S} (hw : Evaluates (tasks env fs) (.node path) w) :
    Evaluates (tasks env fs) (.filteredDirectoryContents path filters)
      (filteredDirectoryContentsValue env fs path filters (fileValue (fs.getFileInfo path))) :=
  evaluates_iff.mpr (completes_filteredDirectoryContents.mpr
    ⟨⟨w, hw⟩, _, evaluates_iff.mpr (completes_stat.mpr ⟨⟨w, hw⟩, rfl⟩), rfl⟩)

/-- A directory can be listed for every signature. -/
theorem exists_contents_of_directory (hw : Evaluates (tasks env fs) (.node path) (.existingInput (fs.getFileInfo path)))
    (hdirectory : (fs.getFileInfo path).isDirectory = true)
    (hmissing : (fs.getFileInfo path).isMissing = false) (kind : SignatureKind) :
    ∃ dv filenames, Evaluates (tasks env fs) (contentsKey path filters) dv ∧
      filenamesOf kind filters dv = some filenames := by
  unfold contentsKey
  by_cases hfilters : filters = []
  · rw [if_pos hfilters]
    refine ⟨.directoryContents (fs.getFileInfo path) (getContents fs path), getContents fs path,
      evaluates_iff.mpr (completes_directoryContents.mpr ⟨_, hw, rfl⟩), ?_⟩
    cases kind with
    | tree => exact if_neg (by simp [hfilters, Value.isDirectoryContents])
    | treeStructure => rfl
  · rw [if_neg hfilters]
    have hvalue := evaluates_filtered filters hw
    rw [fileValue, hmissing] at hvalue
    simp only [filteredDirectoryContentsValue, hdirectory, if_true, Bool.false_eq_true, if_false] at hvalue
    refine ⟨_, getFilteredContents env fs path filters, hvalue, ?_⟩
    cases kind with
    | tree => exact if_neg (by simp [hfilters, Value.isFilteredDirectoryContents])
    | treeStructure => rfl

variable (kind) in
/-- **Signatures have values**, if the contents of the path do and nothing under it stands for a directory. -/
theorem exists_evaluates_signature (h : Unslashed env) (hproducers : (env.lookupNode path).producers = [])
    (hcontents : ∃ dv filenames, Evaluates (tasks env fs) (contentsKey path filters) dv ∧
      filenamesOf kind filters dv = some filenames) :
    ∃ v, Evaluates (tasks env fs) (signatureKey kind path filters) v := by
  -- what is under the path comes first
  induction hn : fs.height path using Nat.strong_induction_on generalizing path with
  | _ n ih =>
    obtain ⟨dv, filenames, hdv, hnames⟩ := hcontents
    have hlisted := filenames_eq_listed (contents_of_evaluates hproducers hdv) hnames
    refine (exists_completes_signature env fs hdv hnames (fun x hx => ?_) (fun x hx w hw hdirectory => ?_)).imp
      fun v => evaluates_iff.mpr
    · rw [hlisted] at hx
      exact ⟨_, h.evaluates_node (getLast?_append_ne_slash path (proper_of_mem_listed hx))⟩
    · rw [hlisted] at hx
      have hiterated := (mem_listed.mp hx).1
      have hname := getLast?_append_ne_slash path (proper_of_mem hiterated)
      have hmissing := getFileInfo_append_of_mem hiterated
      have hvalue := eq_inputValue_of_evaluates (h _ hname).1 hname hw
      -- only a file node has the value of a directory
      have hexisting : w = .existingInput (fs.getFileInfo (append path x)) := by
        rw [hvalue, inputValue] at hdirectory ⊢
        split at hdirectory
        · cases hdirectory
        · rename_i hvirtual
          rw [if_neg hvirtual, nodePath_of_getLast?_ne hname, fileValue, hmissing]
          rfl
      rw [hexisting] at hw hdirectory
      exact ih _ (hn ▸ height_append_lt hiterated) (h _ hname).1
        (exists_contents_of_directory hw hdirectory hmissing kind) rfl

end DirectoryTasks

end Builra
