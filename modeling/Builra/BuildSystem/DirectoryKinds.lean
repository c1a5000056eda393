import Builra.BuildSystem.DirectoryRuns

namespace Builra

/-!
# `BuildSystem.DirectoryKinds` — which values the directory tasks accept

A directory listing is given the value of the node of its path, and a signature task the value of a listing. Each
lists by hand the kinds of values it can do with. `values_accepted_iff` says for which paths these lists are long
enough: not for the output of a failed command, of which a structure signature asserts that it cannot be, not for a
virtual node, which has no file information, and not for a file, if its structure signature has exclusion patterns.
-/

open FileSystem (Name Path slash)
open Demand List

namespace DirectoryTasks

open SignatureTask

variable {S : Type} {env : Env S} {fs : FileSystem} {path : Path} {filters : List Name}

/-! ## Results of commands -/

/-- The results with which a command can end. -/
inductive CommandResult (command : Command) : Value S → Prop where
  | failed : CommandResult command .failedCommand
  | propagatedFailure : CommandResult command .propagatedFailureCommand
  | cancelled : CommandResult command .cancelledCommand
  | skipped : CommandResult command .skippedCommand
  | succeeded (infos : List FileInfo) : command.commandClass ≠ .staleFileRemovalCommand →
      infos.length = command.outputs.length → (command.commandClass = .symlinkCommand → infos.length = 1) →
      CommandResult command (.successfulCommand infos)
  | succeededWithOutputSignature (infos : List FileInfo) (signature : S) :
      command.commandClass ≠ .staleFileRemovalCommand →
      infos.length = command.outputs.length → (command.commandClass = .symlinkCommand → infos.length = 1) →
      CommandResult command (.successfulCommandWithOutputSignature infos signature)
  | removedStaleFiles (files : List Path) : command.commandClass = .staleFileRemovalCommand →
      CommandResult command (.staleFileRemoval files)

/-- What the loader and the commands see to: nodes are outputs of their producers, and a command that succeeds has
    information on each of its outputs. -/
structure Env.Consistent (env : Env S) : Prop where
  outputs : ∀ name command, getCommand env name = some command → name ∈ (env.commands command).outputs
  result : ∀ command, CommandResult (env.commands command) (env.result command)

/-- A virtual node for which commands give no file information. -/
def BuildNode.isOnlyVirtual (node : BuildNode) : Bool := node.isVirtual && !node.commandTimestamp

/-- The command did not fail, and it gives the node a value that says what there is at the path. -/
def Command.givesFile (command : Command) (node : BuildNode) (value : Value S) : Prop :=
  isFailure value = false ∧
    match command.commandClass with
    | .externalCommand => node.isOnlyVirtual = true → value = .skippedCommand
    | .phonyCommand => node.isOnlyVirtual = false
    | .symlinkCommand => True
    | .staleFileRemovalCommand => value = .skippedCommand

/-- The values of nodes that say what there is at the path. -/
def Value.isFileValue : Value S → Bool
  | .existingInput _ | .missingInput | .missingOutput | .skippedCommand => true
  | _ => false

/-- The values of nodes that a listing or the structure signature of the path is not made for. -/
inductive Value.Unexpected : Value S → Prop where
  | failedInput : Unexpected .failedInput
  | virtualInput : Unexpected .virtualInput
  | staleFileRemoval (files : List Path) : Unexpected (.staleFileRemoval files)

theorem isFileValue_fileValue (info : FileInfo) : (fileValue info : Value S).isFileValue = true := by
  unfold fileValue
  split <;> rfl

variable {infos : List FileInfo} {name : Name} {node : BuildNode} {value : Value S}

/-- A command that succeeded says what there is at an output of it. -/
theorem externalResult_success {outputs : List Name} (hname : name ∈ outputs) (hinfos : infos.length = outputs.length)
    (hnode : node.isOnlyVirtual = false) (hvalue : value = .successfulCommand infos ∨
      ∃ signature, value = .successfulCommandWithOutputSignature infos signature) :
    ∃ r, externalResultForOutput outputs name node value = some r ∧ r.isFileValue = true := by
  have hlt : outputs.idxOf name < infos.length := by
    rw [hinfos]
    exact idxOf_lt_length_of_mem hname
  have hvirtual : ¬(node.isVirtual = true ∧ node.commandTimestamp = false) := by
    rintro ⟨hv, ht⟩
    rw [BuildNode.isOnlyVirtual, hv, ht] at hnode
    cases hnode
  have hsome : infos[outputs.idxOf name]? = some infos[outputs.idxOf name] := getElem?_eq_getElem hlt
  refine ⟨if infos[outputs.idxOf name].isMissing then .missingOutput else .existingInput infos[outputs.idxOf name],
    ?_, ?_⟩
  · rcases hvalue with rfl | ⟨signature, rfl⟩
    · simp only [externalResultForOutput, if_neg hvirtual, if_pos hname, hsome]
    · simp only [externalResultForOutput, if_neg hvirtual, if_pos hname, hsome]
  · split <;> rfl

theorem externalResult_virtual {outputs : List Name} (hnode : node.isOnlyVirtual = true)
    (hvalue : value = .successfulCommand infos ∨
      ∃ signature, value = .successfulCommandWithOutputSignature infos signature) :
    externalResultForOutput outputs name node value = some .virtualInput := by
  have hvirtual : node.isVirtual = true ∧ node.commandTimestamp = false := by
    simpa [BuildNode.isOnlyVirtual] using hnode
  rcases hvalue with rfl | ⟨signature, rfl⟩
  · simp only [externalResultForOutput, if_pos hvirtual]
  · simp only [externalResultForOutput, if_pos hvirtual]

/-- A command that succeeded, of any class but the one for stale files. -/
theorem getResultForOutput_success {command : Command} (hname : name ∈ command.outputs)
    (hclass : command.commandClass ≠ .staleFileRemovalCommand) (hinfos : infos.length = command.outputs.length)
    (hone : command.commandClass = .symlinkCommand → infos.length = 1) (hvalue : value = .successfulCommand infos ∨
      ∃ signature, value = .successfulCommandWithOutputSignature infos signature) :
    ∃ r, command.getResultForOutput name node value = some r ∧
      ((command.givesFile node value ∧ r.isFileValue = true) ∨ (¬command.givesFile node value ∧ r.Unexpected)) := by
  have hfailure : isFailure value = false := by
    rcases hvalue with rfl | ⟨signature, rfl⟩ <;> rfl
  have hskipped : value ≠ .skippedCommand := by
    rcases hvalue with rfl | ⟨signature, rfl⟩ <;> simp
  unfold Command.getResultForOutput Command.givesFile
  cases hc : command.commandClass with
  | externalCommand =>
    cases hnode : node.isOnlyVirtual with
    | false =>
      obtain ⟨r, hr, hfile⟩ := externalResult_success hname hinfos hnode hvalue
      exact ⟨r, hr, Or.inl ⟨⟨hfailure, by simp⟩, hfile⟩⟩
    | true =>
      exact ⟨_, externalResult_virtual hnode hvalue, Or.inr ⟨fun h => hskipped (h.2 rfl), .virtualInput⟩⟩
  | phonyCommand =>
    cases hnode : node.isOnlyVirtual with
    | false =>
      have hvirtual : ¬(node.isVirtual = true ∧ node.commandTimestamp = false) := by
        simpa [BuildNode.isOnlyVirtual] using hnode
      obtain ⟨r, hr, hfile⟩ := externalResult_success hname hinfos hnode hvalue
      exact ⟨r, by simp only [if_neg hvirtual, hr], Or.inl ⟨⟨hfailure, rfl⟩, hfile⟩⟩
    | true =>
      have hvirtual : node.isVirtual = true ∧ node.commandTimestamp = false := by
        simpa [BuildNode.isOnlyVirtual] using hnode
      exact ⟨.virtualInput, by simp only [if_pos hvirtual], Or.inr ⟨fun h => (by cases h.2), .virtualInput⟩⟩
  | symlinkCommand =>
    obtain ⟨info, rfl⟩ := length_eq_one_iff.mp (hone hc)
    refine ⟨if info.isMissing then .missingOutput else .existingInput info, ?_, Or.inl ⟨⟨hfailure, trivial⟩, ?_⟩⟩
    · rcases hvalue with rfl | ⟨signature, rfl⟩ <;> rfl
    · split <;> rfl
  | staleFileRemovalCommand => exact absurd hc hclass

/-- **What nodes get from commands.** -/
theorem getResultForOutput_cases {command : Command} (node : BuildNode) (hname : name ∈ command.outputs)
    (hresult : CommandResult command value) :
    ∃ r, command.getResultForOutput name node value = some r ∧
      ((command.givesFile node value ∧ r.isFileValue = true) ∨ (¬command.givesFile node value ∧ r.Unexpected)) := by
  cases hresult with
  | succeeded infos hclass hinfos hone => exact getResultForOutput_success hname hclass hinfos hone (Or.inl rfl)
  | succeededWithOutputSignature infos signature hclass hinfos hone =>
    exact getResultForOutput_success hname hclass hinfos hone (Or.inr ⟨signature, rfl⟩)
  | removedStaleFiles files hclass =>
    refine ⟨.staleFileRemoval files, ?_, Or.inr ⟨?_, .staleFileRemoval files⟩⟩
    · simp only [Command.getResultForOutput, hclass]
    · simp [Command.givesFile, hclass]
  | skipped =>
    unfold Command.getResultForOutput Command.givesFile
    cases hc : command.commandClass with
    | phonyCommand =>
      cases hnode : node.isOnlyVirtual with
      | false =>
        have hvirtual : ¬(node.isVirtual = true ∧ node.commandTimestamp = false) := by
          simpa [BuildNode.isOnlyVirtual] using hnode
        exact ⟨.skippedCommand, by simp only [if_neg hvirtual]; rfl, Or.inl ⟨⟨rfl, rfl⟩, rfl⟩⟩
      | true =>
        have hvirtual : node.isVirtual = true ∧ node.commandTimestamp = false := by
          simpa [BuildNode.isOnlyVirtual] using hnode
        exact ⟨.virtualInput, by simp only [if_pos hvirtual], Or.inr ⟨fun h => (by cases h.2), .virtualInput⟩⟩
    | externalCommand => exact ⟨.skippedCommand, rfl, Or.inl ⟨⟨rfl, fun _ => rfl⟩, rfl⟩⟩
    | symlinkCommand => exact ⟨.skippedCommand, rfl, Or.inl ⟨⟨rfl, trivial⟩, rfl⟩⟩
    | staleFileRemovalCommand => exact ⟨.skippedCommand, rfl, Or.inl ⟨⟨rfl, rfl⟩, rfl⟩⟩
  | failed | propagatedFailure | cancelled =>
    -- a failure is passed on, but not by phony commands to virtual nodes
    refine (?_ : ∃ r, _ ∧ Value.Unexpected r).imp fun r h => ⟨h.1, Or.inr ⟨fun hgives => ?_, h.2⟩⟩
    · unfold Command.getResultForOutput
      cases command.commandClass with
      | phonyCommand =>
        by_cases hvirtual : node.isVirtual = true ∧ node.commandTimestamp = false
        · exact ⟨.virtualInput, by simp only [if_pos hvirtual], .virtualInput⟩
        · exact ⟨.failedInput, by simp only [if_neg hvirtual]; rfl, .failedInput⟩
      | externalCommand | symlinkCommand | staleFileRemovalCommand => exact ⟨.failedInput, rfl, .failedInput⟩
    · cases hgives.1

/-! ## Values of nodes and listings -/

/-- The task of the node is a `FileInputNodeTask` or a `ProducedNodeTask`. -/
def FileNode (env : Env S) (path : Path) : Prop :=
  ((env.lookupNode path).producers = [] ∧ (env.lookupNode path).type = .plain) ∨
    ((env.lookupNode path).producers ≠ [] ∧ (env.lookupNode path).type ≠ .directory)

/-- The node is an input, or the output of a command that gives it a value for a file. -/
def GivesFile (env : Env S) (path : Path) : Prop :=
  (env.lookupNode path).producers = [] ∨ ∃ command, getCommand env path = some command ∧
    (env.commands command).givesFile (env.lookupNode path) (env.result command)

variable (fs) in
/-- **The value of a node.** -/
theorem nodeValue_cases (henv : env.Consistent) (hnode : FileNode env path) :
    ∃ w, (∀ w', Evaluates (tasks env fs) (.node path) w' ↔ w' = w) ∧
      ((GivesFile env path ∧ w.isFileValue = true) ∨ (¬GivesFile env path ∧ w.Unexpected)) := by
  rcases hnode with ⟨hproducers, htype⟩ | ⟨hproducers, htype⟩
  · exact ⟨_, fun w' => evaluates_iff.trans (completes_fileInput hproducers htype),
      Or.inl ⟨Or.inl hproducers, isFileValue_fileValue _⟩⟩
  · have hvalue : ∀ w', Evaluates (tasks env fs) (.node path) w' ↔ _ :=
      fun w' => evaluates_iff.trans (completes_producedNode hproducers htype)
    cases hcommand : getCommand env path with
    | none =>
      simp only [hcommand] at hvalue
      refine ⟨.failedInput, hvalue, Or.inr ⟨?_, .failedInput⟩⟩
      rintro (h | ⟨command, h, -⟩)
      · exact hproducers h
      · rw [hcommand] at h
        cases h
    | some command =>
      simp only [hcommand] at hvalue
      have hresult : ∀ w, Evaluates (tasks env fs) (.command command) w ↔ w = env.result command :=
        fun w => evaluates_iff.trans completes_command
      have hgives : GivesFile env path ↔
          (env.commands command).givesFile (env.lookupNode path) (env.result command) := by
        constructor
        · rintro (h | ⟨command', h, hgives⟩)
          · exact absurd h hproducers
          · rw [hcommand] at h
            cases h
            exact hgives
        · exact fun h => Or.inr ⟨command, hcommand, h⟩
      rw [hgives]
      obtain ⟨r, hr, hcases⟩ := getResultForOutput_cases (env.lookupNode path)
        (henv.outputs path command hcommand) (henv.result command)
      have hne : r ≠ .invalid := by
        rintro rfl
        rcases hcases with ⟨-, h⟩ | ⟨-, h⟩ <;> cases h
      refine ⟨r, fun w' => (hvalue w').trans ?_, hcases⟩
      constructor
      · rintro ⟨w, hw, -, hw'⟩
        rw [(hresult w).mp hw, hr] at hw'
        exact (Option.some.inj hw').symm
      · rintro rfl
        exact ⟨_, (hresult _).mpr rfl, hne, hr⟩

variable (fs path filters) in
/-- A listing can do with every value for a file, and a structure signature with the listing. -/
theorem directoryContentsValue_of_isFileValue {w : Value S} (hw : w.isFileValue = true) :
    ∃ v, directoryContentsValue fs path w = some v ∧ (filenamesOf .treeStructure filters v).isSome = true := by
  cases w <;> first | exact ⟨_, rfl, rfl⟩ | cases hw

variable (fs path filters) in
/-- Where a value is unexpected, the listing or the structure signature fails. -/
theorem Value.Unexpected.fails {w : Value S} (hw : w.Unexpected) : directoryContentsValue fs path w = none ∨
    ∃ v, directoryContentsValue fs path w = some v ∧ filenamesOf .treeStructure filters v = none := by
  cases hw with
  | failedInput => exact Or.inr ⟨.failedInput, rfl, rfl⟩
  | virtualInput | staleFileRemoval files => exact Or.inl rfl

theorem kinds_of_getDirectoryContents_eq_none {v : Value S} (h : v.getDirectoryContents = none) :
    v.isDirectoryContents = false ∧ v.isFilteredDirectoryContents = false := by
  cases v <;> first | exact ⟨rfl, rfl⟩ | cases h

/-- A tree signature can do with every value. -/
theorem filenamesOf_tree_isSome (filters : List Name) (v : Value S) :
    (filenamesOf .tree filters v).isSome = true := by
  show (if (filters = [] ∧ v.isDirectoryContents = false) ∨
    (filters ≠ [] ∧ v.isFilteredDirectoryContents = false) then some [] else v.getDirectoryContents).isSome = true
  split
  · rfl
  · rename_i h
    cases hv : v.getDirectoryContents with
    | some filenames => rfl
    | none =>
      obtain ⟨hcontents, hfiltered⟩ := kinds_of_getDirectoryContents_eq_none hv
      by_cases hfilters : filters = []
      · exact absurd (Or.inl ⟨hfilters, hcontents⟩) h
      · exact absurd (Or.inr ⟨hfilters, hfiltered⟩) h

/-! ## What the tasks accept -/

theorem accepts_directoryContents_iff {answers : Key → Value S → Prop} :
    Accepts (tasks env fs) answers (.directoryContents path) ↔
      ∀ w, answers (.node path) w → (directoryContentsValue fs path w).isSome = true := by
  rw [accepts_of_one_request (i := 0) (k := .node path) rfl]
  · refine forall_congr' fun w => forall_congr' fun hw => ?_
    constructor
    · rintro ⟨s', v, hstep, hv⟩
      cases hstep
      have hv' : directoryContentsValue fs path w = some v := hv
      rw [hv']
      rfl
    · intro h
      obtain ⟨v, hv⟩ := Option.isSome_iff_exists.mp h
      exact ⟨.directoryContents path w, v, rfl, hv⟩
  · intro w s' new hstep
    cases hstep
    rfl

theorem accepts_filteredDirectoryContents {answers : Key → Value S → Prop} :
    Accepts (tasks env fs) answers (.filteredDirectoryContents path filters) := by
  intro s pending hrun
  obtain ⟨dv, rfl⟩ : ∃ dv, s = .filteredDirectoryContents path filters dv := by
    refine hrun.invariant (fun s _ => ∃ dv, s = .filteredDirectoryContents path filters dv) ⟨.invalid, rfl⟩ ?_
    rintro s before after i k w s' new ⟨dv, rfl⟩ - hstep
    cases hstep
    exact ⟨_, rfl⟩
  exact ⟨fun r _ w _ => ⟨_, rfl⟩, fun _ => ⟨_, rfl⟩⟩

/-- The task accepts whatever it is given, and it completes if everything it requests has a value. -/
def Served (env : Env S) (fs : FileSystem) (key : Key) : Prop :=
  Accepts (tasks env fs) (Evaluates (tasks env fs)) key ∧
    ((∀ k, Requests (tasks env fs) key k → ∃ w, Evaluates (tasks env fs) k w) →
      ∃ v, Evaluates (tasks env fs) key v)

theorem served_directoryContents
    (h : Accepts (tasks env fs) (Evaluates (tasks env fs)) (.directoryContents path)) :
    Served env fs (.directoryContents path) := by
  refine ⟨h, fun hrequests => ?_⟩
  obtain ⟨w, hw⟩ := hrequests (.node path) requests_of_directoryContents
  obtain ⟨v, hv⟩ := Option.isSome_iff_exists.mp (accepts_directoryContents_iff.mp h w hw)
  exact ⟨v, evaluates_iff.mpr (completes_directoryContents.mpr ⟨w, hw, hv⟩)⟩

theorem served_filteredDirectoryContents : Served env fs (.filteredDirectoryContents path filters) := by
  refine ⟨accepts_filteredDirectoryContents, fun hrequests => ?_⟩
  have hnode := hrequests (.node path) (Requests.of_start (i := 0) (by simp [tasks, start]))
  obtain ⟨x, hx⟩ := hrequests (.stat path) (Requests.of_start (i := 1) (by simp [tasks, start]))
  exact ⟨_, evaluates_iff.mpr (completes_filteredDirectoryContents.mpr ⟨hnode, x, hx, rfl⟩)⟩

theorem served_signature {kind : SignatureKind}
    (h : Accepts (tasks env fs) (Evaluates (tasks env fs)) (signatureKey kind path filters)) :
    Served env fs (signatureKey kind path filters) := by
  refine ⟨h, fun hrequests => ?_⟩
  obtain ⟨v, hv⟩ := hrequests _ requests_contents
  obtain ⟨filenames, hnames⟩ := Option.isSome_iff_exists.mp (accepts_signature_iff.mp h v hv)
  obtain ⟨result, hresult⟩ := exists_completes_signature env fs hv hnames
    (fun x hx => hrequests _ (requests_child hv hnames hx))
    (fun x hx w hw hdirectory => hrequests _ (requests_childSignature hv hnames hx hw hdirectory))
  exact ⟨result, evaluates_iff.mpr hresult⟩

/-! ## Main result -/

/-- The tasks that a directory with these exclusion patterns brings about for its path. -/
def consumers (path : Path) (filters : List Name) : List Key :=
  [contentsKey path filters, .directoryTreeSignature path filters, .directoryTreeStructureSignature path filters]

/-- The path is one that every task can do with. -/
def Tolerated (env : Env S) (fs : FileSystem) (path : Path) (filters : List Name) : Prop :=
  if filters = [] then GivesFile env path
  else (fs.getFileInfo path).isMissing = true ∨ (fs.getFileInfo path).isDirectory = true

/-- With exclusion patterns, the information on the path decides. -/
theorem evaluates_filteredDirectoryContents_iff (henv : env.Consistent) (hnode : FileNode env path) {v : Value S} :
    Evaluates (tasks env fs) (.filteredDirectoryContents path filters) v ↔
      v = filteredDirectoryContentsValue env fs path filters (fileValue (fs.getFileInfo path)) := by
  obtain ⟨w, hw, -⟩ := nodeValue_cases fs henv hnode
  have hstat : ∀ x, Evaluates (tasks env fs) (.stat path) x ↔ x = fileValue (fs.getFileInfo path) := by
    intro x
    rw [evaluates_iff, completes_stat, and_iff_right ⟨w, (hw w).mpr rfl⟩]
  rw [evaluates_iff, completes_filteredDirectoryContents, and_iff_right ⟨w, (hw w).mpr rfl⟩]
  simp only [hstat, exists_eq_left]

variable (env filters) in
/-- The structure signature of a file has no exclusion patterns. -/
theorem filenamesOf_filtered_isSome_iff :
    (filenamesOf .treeStructure filters (filteredDirectoryContentsValue env fs path filters
      (fileValue (fs.getFileInfo path)))).isSome = true ↔
        (fs.getFileInfo path).isMissing = true ∨ (fs.getFileInfo path).isDirectory = true := by
  cases hmissing : (fs.getFileInfo path).isMissing with
  | true => simp [fileValue, hmissing, filteredDirectoryContentsValue, filenamesOf]
  | false =>
    cases hdirectory : (fs.getFileInfo path).isDirectory with
    | true | false =>
      simp [fileValue, hmissing, filteredDirectoryContentsValue, hdirectory, filenamesOf, Value.getDirectoryContents]

/-- **Which values are accepted.** For the path of a file or of an output, every task that is given the value of the
    node or of the listing accepts it and completes, exactly if the path is tolerated. -/
theorem values_accepted_iff (henv : env.Consistent) (hnode : FileNode env path) :
    (∀ key ∈ consumers path filters, Served env fs key) ↔ Tolerated env fs path filters := by
  have htree : Served env fs (signatureKey .tree path filters) :=
    served_signature (accepts_signature_iff.mpr fun v _ => filenamesOf_tree_isSome filters v)
  obtain ⟨w, hw, hcases⟩ := nodeValue_cases fs henv hnode
  simp only [consumers, forall_mem_cons, not_mem_nil, false_imp_iff, implies_true, and_true]
  unfold Tolerated
  by_cases hfilters : filters = []
  · -- the value of the node decides
    subst hfilters
    have hlisting : ∀ v, Evaluates (tasks env fs) (.directoryContents path) v ↔
        directoryContentsValue fs path w = some v := by
      intro v
      rw [evaluates_iff, completes_directoryContents]
      simp only [hw, exists_eq_left]
    rw [if_pos rfl, contentsKey, if_pos rfl]
    constructor
    · rintro ⟨hcontents, -, hstructure⟩
      have hstructure' : Served env fs (signatureKey .treeStructure path []) := hstructure
      rcases hcases with ⟨hgives, -⟩ | ⟨-, hunexpected⟩
      · exact hgives
      · exfalso
        have haccepts := accepts_directoryContents_iff.mp hcontents.1 w ((hw w).mpr rfl)
        have haccepts' := accepts_signature_iff.mp hstructure'.1
        rcases hunexpected.fails fs path [] with hnone | ⟨v, hv, hnone⟩
        · rw [hnone] at haccepts
          cases haccepts
        · have hsome := haccepts' v ((hlisting v).mpr hv)
          rw [hnone] at hsome
          cases hsome
    · intro hgives
      have hfile : w.isFileValue = true := by
        rcases hcases with ⟨-, hfile⟩ | ⟨hnot, -⟩
        · exact hfile
        · exact absurd hgives hnot
      obtain ⟨v, hv, hnames⟩ := directoryContentsValue_of_isFileValue fs path [] hfile
      have hstructure : Served env fs (signatureKey .treeStructure path []) := by
        refine served_signature (accepts_signature_iff.mpr fun v' hv' => ?_)
        have hv'' := (hlisting v').mp hv'
        rw [hv] at hv''
        cases hv''
        exact hnames
      refine ⟨served_directoryContents (accepts_directoryContents_iff.mpr fun w' hw' => ?_), htree, hstructure⟩
      rw [(hw w').mp hw', hv]
      rfl
  · have hlisting : ∀ v, Evaluates (tasks env fs) (contentsKey path filters) v ↔
        v = filteredDirectoryContentsValue env fs path filters (fileValue (fs.getFileInfo path)) := by
      intro v
      rw [contentsKey, if_neg hfilters]
      exact evaluates_filteredDirectoryContents_iff henv hnode
    have hstructure : Served env fs (signatureKey .treeStructure path filters) ↔
        (fs.getFileInfo path).isMissing = true ∨ (fs.getFileInfo path).isDirectory = true := by
      rw [← filenamesOf_filtered_isSome_iff env filters]
      constructor
      · intro hserved
        exact accepts_signature_iff.mp hserved.1 _ ((hlisting _).mpr rfl)
      · intro hnames
        refine served_signature (accepts_signature_iff.mpr fun v hv => ?_)
        rw [(hlisting v).mp hv]
        exact hnames
    rw [if_neg hfilters, contentsKey, if_neg hfilters]
    constructor
    · rintro ⟨-, -, hserved⟩
      exact hstructure.mp hserved
    · intro hinfo
      exact ⟨served_filteredDirectoryContents, htree, hstructure.mpr hinfo⟩

/-- A file system with a single file `f`. -/
def singleFile : FileSystem :=
  .ofEntries [([], ⟨{ inode := 1, mode := 0x41ed }, true, FileSystem.root_present, FileSystem.root_mode⟩),
    ([[102]], ⟨{ inode := 2, mode := 0x81a4 }, false, rfl, fun h => (by cases h)⟩)] [] 1 (by decide)

/-- No nodes are declared. -/
def noNodes : Env Unit := .ofNodes ⟨fun _ => (), fun _ => (), fun _ => (), fun _ _ => ()⟩ (fun _ _ => false) fun _ => none

theorem noNodes_consistent : noNodes.Consistent where
  outputs := fun name command h => by
    have hproducers : (noNodes.lookupNode name).producers = [] := createNode_producers name
    rw [getCommand, hproducers] at h
    cases h
  result := fun _ => .failed

/-- Without exclusion patterns, a file is listed as an empty directory. -/
theorem values_accepted_singleFile : Served noNodes singleFile (.directoryTreeStructureSignature [102] []) := by
  have hserved : ∀ key ∈ consumers [102] [], Served noNodes singleFile key :=
    (values_accepted_iff noNodes_consistent (Or.inl ⟨rfl, rfl⟩)).mpr (Or.inl rfl)
  exact hserved _ (by simp [consumers])

/-- With them, the structure signature of the file fails. -/
theorem structureSignature_fails_on_file :
    Evaluates (tasks noNodes singleFile) (.filteredDirectoryContents [102] [[42]])
        (.existingInput { inode := 2, mode := 0x81a4 }) ∧
      ¬Served noNodes singleFile (.directoryTreeStructureSignature [102] [[42]]) := by
  have hvalue : Evaluates (tasks noNodes singleFile) (.filteredDirectoryContents [102] [[42]])
      (.existingInput { inode := 2, mode := 0x81a4 }) :=
    (evaluates_filteredDirectoryContents_iff noNodes_consistent (Or.inl ⟨rfl, rfl⟩)).mpr (by decide)
  refine ⟨hvalue, fun hserved => ?_⟩
  have hserved' : Served noNodes singleFile (signatureKey .treeStructure [102] [[42]]) := hserved
  exact absurd (accepts_signature_iff.mp hserved'.1 _ hvalue) (by decide)

end DirectoryTasks

end Builra
