import Builra.BuildSystem.BuildKey
import Builra.BuildSystem.CommandSignature
import Builra.BuildSystem.DirectoryTasks

namespace Builra

open List
open Option hiding all_eq_true forall_mem_map or_assoc
open Bool hiding and_assoc or_assoc

/-!
# `BuildSystem.ExternalCommand` — what a command object keeps from one build to the next

An `ExternalCommand` is made when the build file is loaded and is used by all builds of the `BuildSystem`. Four of its
fields are about the build that is going on, and `start` sets two of them back. What the other two say after a number
of builds is a matter of all of these (`hasPriorResult_builds`, `canUpdateIfNewer_builds`), so whether a command with
modified outputs has to be run does not rest on the values of one build alone; `decidesAlone_iff` says exactly when it
does.

* `parentPath`: `sys::path::parent_path` for POSIX paths.
* `Object` with `start`, `providePriorValue`, `provideValue` and `execute`; a failed assertion is none.
* `Object.builds`: the builds of one object, and what is left of them in its fields.
-/

open FileSystem (Name Path slash)
open DirectoryTasks (BuildNode nodePath)
open BuildValue (OutputInfos)

namespace ExternalCommand

/-! ## Parent paths -/

def isSeparator (path : Path) (i : Nat) : Bool := path[i]? = some slash

/-- `find_first_of` for separators. -/
def findFirstSeparator (path : Path) (start : Nat) : Option Nat :=
  ((List.range path.length).drop start).find? (isSeparator path)

/-- `find_last_of` for separators. -/
def findLastSeparator (path : Path) : Option Nat := (List.range path.length).reverse.find? (isSeparator path)

/-- `filename_pos`. -/
def filenamePos (path : Path) : Nat :=
  if path ≠ [] ∧ isSeparator path (path.length - 1) then path.length - 1
  else
    match findLastSeparator path with
    | none => 0
    | some pos => if pos = 1 ∧ isSeparator path 0 then 0 else pos + 1

/-- `root_dir_start`; none for `npos`. -/
def rootDirStart (path : Path) : Option Nat :=
  -- case "//net"
  if 3 < path.length ∧ isSeparator path 0 ∧ isSeparator path 1 ∧ ¬ isSeparator path 2 then findFirstSeparator path 2
  -- case "/"
  else if isSeparator path 0 then some 0
  else none

/-- The loop of `parent_path_end`: separators are skipped down to the root directory. -/
def skipSeparators (path : Path) (rootDirPos : Option Nat) : Nat → Nat
  | 0 => 0
  | endPos + 1 =>
    if (∀ pos ∈ rootDirPos, pos < endPos + 1) ∧ isSeparator path endPos then skipSeparators path rootDirPos endPos
    else endPos + 1

/-- `parent_path_end`. -/
def parentPathEnd (path : Path) : Nat :=
  let filenameWasSep := isSeparator path (filenamePos path)
  let endPos := skipSeparators path (rootDirStart path) (filenamePos path)
  if rootDirStart path = some endPos ∧ ¬ filenameWasSep then endPos + 1 else endPos

/-- `sys::path::parent_path`. -/
def parentPath (path : Path) : Path := path.take (parentPathEnd path)

example : parentPath (literal "a//b") = literal "a" ∧ parentPath (literal "/a") = literal "/" ∧
    parentPath (literal "a/b/") = literal "a/b" ∧ parentPath (literal "a") = [] := by decide +kernel

/-! ## The object -/

/-- An `ExternalCommand` object: the command that was configured, and the fields for its builds. -/
structure Object extends ExternalCommand where
  skipValue : Option BuildValue := none
  missingInputKeys : List BuildKey := []
  canUpdateIfNewer : Bool := true
  hasPriorResult : Bool := false

/-- The object when the build file is loaded. -/
def object (command : ExternalCommand) : Object := { command with }

namespace Object

variable (o : Object)

/-- `start`; the inputs are requested, with their indices as identifiers. -/
def start : Object := { o with skipValue := none, missingInputKeys := [] }

variable (value : BuildValue)

/-- `providePriorValue`. -/
def providePriorValue : Object :=
  if value.kind.isSuccessfulCommand then { o with hasPriorResult := true } else o

/-- The values after which `provideValue` returns early: they come from custom tasks. -/
def isCommandValue : Bool :=
  value.kind.isSuccessfulCommand || value.kind = .failedCommand || value.kind = .propagatedFailureCommand ||
    value.kind = .cancelledCommand

/-- The assertions of `provideValue`: direct inputs are individual node values. -/
def isNodeValue : Bool :=
  decide (¬ 1 < value.outputInfos.numOutputInfos) &&
    (value.kind = .existingInput || value.kind = .missingInput || value.kind = .missingOutput ||
      value.kind = .failedInput || value.kind = .virtualInput || value.kind = .skippedCommand ||
      value.kind = .directoryTreeSignature || value.kind = .directoryTreeStructureSignature ||
      value.kind = .staleFileRemoval)

/-- `getSkipValueForInput`. -/
def getSkipValueForInput : Option BuildValue :=
  match value.kind with
  | .directoryTreeSignature | .directoryTreeStructureSignature | .existingInput | .virtualInput
  | .staleFileRemoval => none
  -- the command may be run against a missing output
  | .missingOutput => none
  | .missingInput => if o.allowMissingInputs then none else some .makePropagatedFailureCommand
  | .failedInput => some .makePropagatedFailureCommand
  | .skippedCommand => none
  -- no other value is a node value
  | _ => none

/-- The key that is reported for a missing input; none if the data stands for no key. -/
def missingInputKey (inputID : UInt64) (key : KeyType) : Option BuildKey :=
  match o.inputs[inputID.toNat]? with
  | some input => some (.makeNode input)
  | none => if (BuildKey.mk key).getKind ≠ .unknown then some ⟨key⟩ else none

/-- `provideValue`; the subclasses that are informed of the value cannot change the fields of this class. -/
def provideValue (inputID : UInt64) (key : KeyType) (value : BuildValue) : Option Object :=
  if isCommandValue value then some o
  else if isNodeValue value then
    match o.getSkipValueForInput value with
    | some skipValue =>
      if value.kind = .missingInput then
        (o.missingInputKey inputID key).map fun missing =>
          { o with skipValue := some skipValue, missingInputKeys := o.missingInputKeys ++ [missing] }
      else some { o with skipValue := some skipValue }
    | none => some (if value.kind = .missingOutput then { o with canUpdateIfNewer := false } else o)
  else none

/-- `canUpdateIfNewerWithResult`. -/
def canUpdateIfNewerWithResult (result : BuildValue) : Bool :=
  o.allowModifiedOutputs && result.outputInfos.toList.all fun outputInfo => !outputInfo.isMissing

end Object

/-! ## Execution -/

/-- `ProcessStatus`. -/
inductive ProcessStatus where
  | unknown
  | succeeded
  | failed
  | cancelled
  | skipped
deriving DecidableEq

/-- What a command meets when it is executed: the epoch of the build, the files, and what `executeExternalCommand`
    would come to and leave. -/
structure Surroundings where
  currentEpoch : UInt64
  getFileInfo : Path → FileInfo
  status : ProcessStatus
  getFileInfoAfterwards : Path → FileInfo

/-- What `execute` does, the delegate's calls included. -/
inductive Effect where
  | commandCannotBuildOutputDueToMissingInputs (output : Option Name) (inputs : List BuildKey)
  | hadCommandFailure
  | createDirectories (path : Path)
  | commandStarted
  | executeExternalCommand
  | commandFinished (status : ProcessStatus)
  | result (value : BuildValue)

variable (lookupNode : Name → BuildNode)

/-- The info of an output. -/
def outputInfo (currentEpoch : UInt64) (getFileInfo : Path → FileInfo) (output : Name) : FileInfo :=
  if (lookupNode output).commandTimestamp then { size := currentEpoch }
  else if (lookupNode output).isVirtual then {}
  else getFileInfo (nodePath output)

variable (command : ExternalCommand)

/-- The infos that `computeCommandResult` collects. -/
def outputInfos (currentEpoch : UInt64) (getFileInfo : Path → FileInfo) :
    List FileInfo :=
  command.outputs.map (outputInfo lookupNode currentEpoch getFileInfo) ++
    -- a command without outputs still has a result that tells its runs apart
    if command.outputs = [] then [{ size := currentEpoch }] else []

/-- `computeCommandResult`. -/
def computeCommandResult (currentEpoch : UInt64)
    (getFileInfo : Path → FileInfo) : BuildValue :=
  .makeSuccessfulCommand (outputInfos lookupNode command currentEpoch getFileInfo)

namespace Object

/-- The directories that are created before the command is run. -/
def parentDirectories (o : Object) : List Effect :=
  o.outputs.flatMap fun output =>
    if (lookupNode output).isVirtual then []
    else
      let parent := parentPath output
      let parent := if output.getLast? = some slash then parentPath parent else parent
      if parent = [] then [] else [.createDirectories parent]

/-- The completion function that `executeExternalCommand` is given; a status that is illegal here is fatal. -/
def finish (o : Object) (w : Surroundings) : List Effect :=
  .commandFinished w.status ::
    match w.status with
    | .failed => [.result .makeFailedCommand]
    | .cancelled => [.result .makeCancelledCommand]
    | .succeeded =>
      [.result (computeCommandResult lookupNode o.toExternalCommand w.currentEpoch w.getFileInfoAfterwards)]
    | .skipped | .unknown => []

/-- `execute`, if the command is not skipped and not only updated. -/
def run (o : Object) (w : Surroundings) : List Effect :=
  o.parentDirectories lookupNode ++ .commandStarted :: .executeExternalCommand :: o.finish lookupNode w

/-- `execute`. -/
def execute (o : Object) (w : Surroundings) : List Effect :=
  match o.skipValue with
  | some skipValue =>
    (if o.missingInputKeys ≠ [] then
        [.commandCannotBuildOutputDueToMissingInputs o.outputs.head? o.missingInputKeys, .hadCommandFailure]
      else []) ++ [.result skipValue]
  | none =>
    let result := computeCommandResult lookupNode o.toExternalCommand w.currentEpoch w.getFileInfo
    if o.canUpdateIfNewer && o.hasPriorResult && o.canUpdateIfNewerWithResult result then [.result result]
    else o.run lookupNode w

end Object

/-! ## What the values of a build do -/

/-- The input values because of which the command is skipped. -/
def Skips (command : ExternalCommand) (value : BuildValue) : Prop :=
  value.kind = .failedInput ∨ value.kind = .missingInput ∧ command.allowMissingInputs = false

namespace Object

theorem getSkipValueForInput_eq (o : Object) (value : BuildValue) :
    o.getSkipValueForInput value = none ∧ ¬ o.Skips value ∨
      o.getSkipValueForInput value = some .makePropagatedFailureCommand ∧ o.Skips value ∧
        value.kind ≠ .missingOutput := by
  unfold getSkipValueForInput Skips
  cases hkind : value.kind with
  | missingInput =>
    cases o.allowMissingInputs with
    | true => exact Or.inl ⟨rfl, by simp⟩
    | false => exact Or.inr ⟨rfl, Or.inr ⟨rfl, rfl⟩, by simp⟩
  | failedInput => exact Or.inr ⟨rfl, Or.inl rfl, by simp⟩
  | _ => exact Or.inl ⟨rfl, by simp⟩

/-- What providing some values makes of the object. -/
structure Provides (o : Object) (values : List BuildValue) (o' : Object) : Prop where
  command : o'.toExternalCommand = o.toExternalCommand
  hasPriorResult : o'.hasPriorResult = o.hasPriorResult
  canUpdateIfNewer : o'.canUpdateIfNewer = true ↔
    o.canUpdateIfNewer = true ∧ ∀ value ∈ values, value.kind ≠ .missingOutput
  skipValue : o'.skipValue = none ↔ o.skipValue = none ∧ ∀ value ∈ values, ¬ o.Skips value
  skipValue_mem : ∀ value ∈ o'.skipValue, value ∈ o.skipValue ∨ value = .makePropagatedFailureCommand
  missingInputKeys : o'.skipValue = none → o'.missingInputKeys = o.missingInputKeys

theorem Provides.nil (o : Object) : o.Provides [] o where
  command := rfl
  hasPriorResult := rfl
  canUpdateIfNewer := by simp
  skipValue := by simp
  skipValue_mem _ h := Or.inl h
  missingInputKeys _ := rfl

variable {o : Object} {value : BuildValue}

theorem Provides.cons {o₁ o' : Object} {values : List BuildValue} (hfirst : o.Provides [value] o₁)
    (hrest : o₁.Provides values o') : o.Provides (value :: values) o' where
  command := hrest.command.trans hfirst.command
  hasPriorResult := hrest.hasPriorResult.trans hfirst.hasPriorResult
  canUpdateIfNewer := by
    rw [hrest.canUpdateIfNewer, hfirst.canUpdateIfNewer, forall_mem_singleton, forall_mem_cons, and_assoc]
  skipValue := by
    rw [hrest.skipValue, hfirst.skipValue, hfirst.command, forall_mem_singleton, forall_mem_cons, and_assoc]
  skipValue_mem v hv := by
    rcases hrest.skipValue_mem v hv with hv | hv
    · exact hfirst.skipValue_mem v hv
    · exact Or.inr hv
  missingInputKeys h := (hrest.missingInputKeys h).trans (hfirst.missingInputKeys (hrest.skipValue.mp h).1)

/-- A value that the command takes as it is. -/
theorem provides_taken (hskips : ¬ o.Skips value) (hkind : value.kind ≠ .missingOutput) : o.Provides [value] o where
  command := rfl
  hasPriorResult := rfl
  canUpdateIfNewer := by
    rw [forall_mem_singleton]
    exact ⟨fun h => ⟨h, hkind⟩, fun h => h.1⟩
  skipValue := by
    rw [forall_mem_singleton]
    exact ⟨fun h => ⟨h, hskips⟩, fun h => h.1⟩
  skipValue_mem _ h := Or.inl h
  missingInputKeys _ := rfl

/-- A missing output: from now on the command has to be run. -/
theorem provides_missingOutput (hkind : value.kind = .missingOutput) :
    o.Provides [value] { o with canUpdateIfNewer := false } where
  command := rfl
  hasPriorResult := rfl
  canUpdateIfNewer := by
    rw [forall_mem_singleton]
    exact ⟨fun h => absurd h false_ne_true, fun h => absurd hkind h.2⟩
  skipValue := by
    rw [forall_mem_singleton]
    exact ⟨fun h => ⟨h, by simp [Skips, hkind]⟩, fun h => h.1⟩
  skipValue_mem _ h := Or.inl h
  missingInputKeys _ := rfl

/-- A value that skips the command. -/
theorem provides_skips (hskips : o.Skips value) (hkind : value.kind ≠ .missingOutput) (keys : List BuildKey) :
    o.Provides [value] { o with skipValue := some .makePropagatedFailureCommand, missingInputKeys := keys } where
  command := rfl
  hasPriorResult := rfl
  canUpdateIfNewer := by
    rw [forall_mem_singleton]
    exact ⟨fun h => ⟨h, hkind⟩, fun h => h.1⟩
  skipValue := by
    rw [forall_mem_singleton]
    exact ⟨fun h => (some_ne_none _ h).elim, fun h => absurd hskips h.2⟩
  skipValue_mem _ h := Or.inr (Option.some.inj h).symm
  missingInputKeys h := (some_ne_none _ h).elim

theorem provides_provideValue {o' : Object} {inputID : UInt64} {key : KeyType}
    (h : o.provideValue inputID key value = some o') : o.Provides [value] o' := by
  unfold provideValue at h
  by_cases hcommand : isCommandValue value = true
  · rw [if_pos hcommand] at h
    cases h
    -- the result of a command is neither an input that is missing nor one that failed
    refine provides_taken ?_ ?_
    · rintro (hkind | ⟨hkind, -⟩)
      · simp [isCommandValue, BuildValue.Kind.isSuccessfulCommand, hkind] at hcommand
      · simp [isCommandValue, BuildValue.Kind.isSuccessfulCommand, hkind] at hcommand
    · intro hkind
      simp [isCommandValue, BuildValue.Kind.isSuccessfulCommand, hkind] at hcommand
  · rw [if_neg hcommand] at h
    by_cases hnode : isNodeValue value = true
    · rw [if_pos hnode] at h
      rcases o.getSkipValueForInput_eq value with ⟨hnone, hskips⟩ | ⟨hsome, hskips, hkind⟩
      · rw [hnone] at h
        cases h
        by_cases hkind : value.kind = .missingOutput
        · rw [if_pos hkind]
          exact provides_missingOutput hkind
        · rw [if_neg hkind]
          exact provides_taken hskips hkind
      · rw [hsome] at h
        by_cases hmissing : value.kind = .missingInput
        · simp only [if_pos hmissing] at h
          obtain ⟨missing, -, rfl⟩ := map_eq_some_iff.mp h
          exact provides_skips hskips hkind _
        · simp only [if_neg hmissing] at h
          cases h
          exact provides_skips hskips hkind _
    · rw [if_neg hnode] at h
      cases h

end Object

/-! ## Builds -/

/-- What one build provides to the object, in this order: the prior value, if there is one, and the values of the
    inputs with their identifiers and keys. -/
structure Build where
  priorValue : Option BuildValue
  values : List (UInt64 × KeyType × BuildValue)
  surroundings : Surroundings

namespace Build

def PriorSuccessful (b : Build) : Prop := ∃ value ∈ b.priorValue, value.kind.isSuccessfulCommand = true

def MissesOutput (b : Build) : Prop := ∃ input ∈ b.values, input.2.2.kind = .missingOutput

end Build

namespace Object

def provideValues (o : Object) : List (UInt64 × KeyType × BuildValue) → Option Object
  | [] => some o
  | (inputID, key, value) :: values => (o.provideValue inputID key value).bind fun o => o.provideValues values

/-- One build up to the execution, which changes no field that a later build reads. -/
def build (o : Object) (b : Build) : Option Object :=
  let o := o.start
  let o := match b.priorValue with
    | some value => o.providePriorValue value
    | none => o
  o.provideValues b.values

/-- The builds of one `BuildSystem`. -/
def builds (o : Object) : List Build → Option Object
  | [] => some o
  | b :: history => (o.build b).bind fun o => o.builds history

variable {o o' o₁ : Object} {b : Build} {history : List Build}

theorem provides_provideValues {values : List (UInt64 × KeyType × BuildValue)} (h : o.provideValues values = some o') :
    o.Provides (values.map fun input => input.2.2) o' := by
  induction values generalizing o with
  | nil =>
    cases h
    exact Provides.nil o'
  | cons input values ih =>
    obtain ⟨o₁, hfirst, hrest⟩ := bind_eq_some_iff.mp h
    exact (provides_provideValue hfirst).cons (ih hrest)

/-- **One build**: two of the fields are about this build, and two are added to. -/
structure Built (o : Object) (b : Build) (o' : Object) : Prop where
  command : o'.toExternalCommand = o.toExternalCommand
  hasPriorResult : o'.hasPriorResult = true ↔ o.hasPriorResult = true ∨ b.PriorSuccessful
  canUpdateIfNewer : o'.canUpdateIfNewer = true ↔ o.canUpdateIfNewer = true ∧ ¬ b.MissesOutput
  skipValue : o'.skipValue = none ↔ ∀ input ∈ b.values, ¬ o.Skips input.2.2
  skipValue_mem : ∀ value ∈ o'.skipValue, value = .makePropagatedFailureCommand
  missingInputKeys : o'.skipValue = none → o'.missingInputKeys = []

theorem built_of_build (h : o.build b = some o') : o.Built b o' := by
  obtain ⟨o₁, ho₁, hprior, hvalues⟩ : ∃ o₁ : Object,
      { o.start with hasPriorResult := o₁.hasPriorResult } = o₁ ∧
      (o₁.hasPriorResult = true ↔ o.hasPriorResult = true ∨ b.PriorSuccessful) ∧
      o₁.provideValues b.values = some o' := by
    unfold build at h
    unfold Build.PriorSuccessful
    cases hvalue : b.priorValue with
    | none =>
      rw [hvalue] at h
      exact ⟨o.start, rfl, by simp [start], h⟩
    | some value =>
      rw [hvalue] at h
      refine ⟨o.start.providePriorValue value, ?_, ?_, h⟩
      · unfold providePriorValue
        split <;> rfl
      · unfold providePriorValue
        split
        · simp [*]
        · simp [start, *]
  have hp := provides_provideValues hvalues
  have hcommand : o₁.toExternalCommand = o.toExternalCommand := by rw [← ho₁]; rfl
  have hskip : o₁.skipValue = none := by rw [← ho₁]; rfl
  refine ⟨hp.command.trans hcommand, ?_, ?_, ?_, ?_, ?_⟩
  · rw [hp.hasPriorResult]
    exact hprior
  · have hcan : o₁.canUpdateIfNewer = o.canUpdateIfNewer := by rw [← ho₁]; rfl
    rw [hp.canUpdateIfNewer, hcan, forall_mem_map]
    simp [Build.MissesOutput]
  · rw [hp.skipValue, forall_mem_map, hcommand]
    exact ⟨fun h => h.2, fun h => ⟨hskip, h⟩⟩
  · intro value hvalue
    rcases hp.skipValue_mem value hvalue with hmem | rfl
    · rw [hskip] at hmem
      cases hmem
    · rfl
  · intro hnone
    rw [hp.missingInputKeys hnone, ← ho₁]
    rfl

theorem builds_append {history' : List Build} :
    o.builds (history ++ history') = (o.builds history).bind fun o => o.builds history' := by
  induction history generalizing o with
  | nil => rfl
  | cons b history ih =>
    rw [cons_append, builds, builds, bind_assoc]
    congr 1
    funext o₁
    exact ih

/-- **After any builds** the fields that are not set back say what happened in some build or in all of them. -/
structure Kept (o : Object) (history : List Build) (o' : Object) : Prop where
  command : o'.toExternalCommand = o.toExternalCommand
  hasPriorResult : o'.hasPriorResult = true ↔ o.hasPriorResult = true ∨ ∃ b ∈ history, b.PriorSuccessful
  canUpdateIfNewer : o'.canUpdateIfNewer = true ↔ o.canUpdateIfNewer = true ∧ ∀ b ∈ history, ¬ b.MissesOutput

theorem kept_of_builds (h : o.builds history = some o') :
    o.Kept history o' := by
  induction history generalizing o with
  | nil =>
    cases h
    exact ⟨rfl, by simp, by simp⟩
  | cons b history ih =>
    obtain ⟨o₁, hfirst, hrest⟩ := bind_eq_some_iff.mp h
    have hbuilt := built_of_build hfirst
    have hkept := ih hrest
    refine ⟨hkept.command.trans hbuilt.command, ?_, ?_⟩
    · rw [hkept.hasPriorResult, hbuilt.hasPriorResult, exists_mem_cons_iff, or_assoc]
    · rw [hkept.canUpdateIfNewer, hbuilt.canUpdateIfNewer, forall_mem_cons, and_assoc]

/-! ### The assertions

Whether they hold is a matter of the values and of the command alone, so each build of a sequence could as well be the
first one.
-/

section

variable (hcommand : o'.toExternalCommand = o.toExternalCommand)
include hcommand

theorem exists_provideValue {inputID : UInt64} {key : KeyType} {value : BuildValue}
    (h : o.provideValue inputID key value = some o₁) :
    ∃ o₁', o'.provideValue inputID key value = some o₁' := by
  have hskip : o'.getSkipValueForInput value = o.getSkipValueForInput value := by
    unfold getSkipValueForInput
    rw [hcommand]
  have hkey : o'.missingInputKey inputID key = o.missingInputKey inputID key := by
    unfold missingInputKey
    rw [hcommand]
  unfold provideValue at h ⊢
  rw [hskip, hkey]
  by_cases hvalue : isCommandValue value = true
  · exact ⟨o', if_pos hvalue⟩
  · rw [if_neg hvalue] at h ⊢
    by_cases hnode : isNodeValue value = true
    · rw [if_pos hnode] at h ⊢
      cases hresult : o.getSkipValueForInput value with
      | none => exact ⟨_, rfl⟩
      | some skipValue =>
        rw [hresult] at h
        by_cases hmissing : value.kind = .missingInput
        · simp only [if_pos hmissing] at h ⊢
          obtain ⟨missing, hmissing, -⟩ := map_eq_some_iff.mp h
          exact ⟨_, map_eq_some_iff.mpr ⟨missing, hmissing, rfl⟩⟩
        · simp only [if_neg hmissing]
          exact ⟨_, rfl⟩
    · rw [if_neg hnode] at h
      cases h

theorem exists_provideValues {values : List (UInt64 × KeyType × BuildValue)}
    (h : o.provideValues values = some o₁) :
    ∃ o₁', o'.provideValues values = some o₁' := by
  induction values generalizing o o' with
  | nil => exact ⟨o', rfl⟩
  | cons input values ih =>
    obtain ⟨o₂, hfirst, hrest⟩ := bind_eq_some_iff.mp h
    obtain ⟨o₂', hfirst'⟩ := exists_provideValue hcommand hfirst
    have hcommand₂ : o₂'.toExternalCommand = o₂.toExternalCommand := by
      rw [(provides_provideValue hfirst).command, (provides_provideValue hfirst').command, hcommand]
    obtain ⟨o₁', hrest'⟩ := ih hcommand₂ hrest
    exact ⟨o₁', bind_eq_some_iff.mpr ⟨o₂', hfirst', hrest'⟩⟩

theorem exists_build (h : o.build b = some o₁) :
    ∃ o₁', o'.build b = some o₁' := by
  have hprior : ∀ (o : Object) value, (o.providePriorValue value).toExternalCommand = o.toExternalCommand := by
    intro o value
    unfold providePriorValue
    split <;> rfl
  unfold build at h ⊢
  refine exists_provideValues ?_ h
  cases b.priorValue with
  | none => exact hcommand
  | some value =>
    show (o'.start.providePriorValue value).toExternalCommand = (o.start.providePriorValue value).toExternalCommand
    rw [hprior, hprior]
    exact hcommand

end

/-- The last of some builds can as well be the first one. -/
theorem exists_builds_singleton (h : o.builds (history ++ [b]) = some o₁) : ∃ o₀, o.builds [b] = some o₀ := by
  obtain ⟨o₂, hhistory, hlast⟩ := bind_eq_some_iff.mp (builds_append.symm.trans h)
  obtain ⟨o₃, hbuild, -⟩ := bind_eq_some_iff.mp hlast
  obtain ⟨o₀, hfirst⟩ := exists_build (kept_of_builds hhistory).command.symm hbuild
  exact ⟨o₀, bind_eq_some_iff.mpr ⟨o₀, hfirst, rfl⟩⟩

end Object

/-! ## The decision -/

/-- `execute` reports success, but the command is not run. -/
def Object.ReportsUnrun (o : Object) (w : Surroundings) : Prop :=
  (∃ value, Effect.result value ∈ o.execute lookupNode w ∧ value.kind.isSuccessfulCommand = true) ∧
    Effect.executeExternalCommand ∉ o.execute lookupNode w

/-- The infos of outputs that the result has room for: the number of infos is a `uint32_t`. -/
def CountedPresent (command : ExternalCommand) (w : Surroundings) : Prop :=
  ∀ info ∈ OutputInfos.stored (outputInfos lookupNode command w.currentEpoch w.getFileInfo), info.isMissing = false

variable {o : Object} {w : Surroundings} {command : ExternalCommand}

theorem canUpdateIfNewerWithResult_iff :
    o.canUpdateIfNewerWithResult (computeCommandResult lookupNode o.toExternalCommand w.currentEpoch w.getFileInfo) =
        true ↔
      o.allowModifiedOutputs = true ∧ CountedPresent lookupNode o.toExternalCommand w := by
  have hlist : (computeCommandResult lookupNode o.toExternalCommand w.currentEpoch w.getFileInfo).outputInfos.toList =
      OutputInfos.stored (outputInfos lookupNode o.toExternalCommand w.currentEpoch w.getFileInfo) :=
    OutputInfos.toList_ofList _ _
  rw [Object.canUpdateIfNewerWithResult, hlist, Bool.and_eq_true, all_eq_true, CountedPresent]
  simp only [not_eq_true']

theorem Object.execute_of_run (h : o.execute lookupNode w = o.run lookupNode w) :
    ¬ o.ReportsUnrun lookupNode w := by
  rintro ⟨-, hnot⟩
  rw [h] at hnot
  exact hnot (mem_append_right _ (by simp))

/-- **When a command is updated without being run**, as far as the fields of the object go. -/
theorem reportsUnrun_iff (hskip : ∀ value ∈ o.skipValue, value = .makePropagatedFailureCommand) (w : Surroundings) :
    o.ReportsUnrun lookupNode w ↔ o.skipValue = none ∧ o.canUpdateIfNewer = true ∧ o.hasPriorResult = true ∧
      o.allowModifiedOutputs = true ∧ CountedPresent lookupNode o.toExternalCommand w := by
  cases hvalue : o.skipValue with
  | some value =>
    -- a skipped command has failed
    refine ⟨fun h => ?_, fun h => nomatch h.1⟩
    obtain ⟨⟨v, hv, hsuccess⟩, -⟩ := h
    rw [Object.execute, hvalue] at hv
    have hresult : v = value := by
      rcases mem_append.mp hv with hv | hv
      · split at hv
        · simp at hv
        · cases hv
      · simpa using hv
    rw [hresult, hskip value hvalue] at hsuccess
    cases hsuccess
  | none =>
    set result := computeCommandResult lookupNode o.toExternalCommand w.currentEpoch w.getFileInfo with hresult
    by_cases hupdate : (o.canUpdateIfNewer && o.hasPriorResult && o.canUpdateIfNewerWithResult result) = true
    · have hexecute : o.execute lookupNode w = [.result result] := by
        rw [Object.execute, hvalue]
        exact if_pos hupdate
      rw [and_eq_true, and_eq_true, hresult, canUpdateIfNewerWithResult_iff] at hupdate
      refine ⟨fun _ => ⟨rfl, hupdate.1.1, hupdate.1.2, hupdate.2⟩, fun _ => ⟨⟨result, ?_, rfl⟩, ?_⟩⟩
      · rw [hexecute]
        exact mem_singleton_self _
      · rw [hexecute]
        simp
    · have hexecute : o.execute lookupNode w = o.run lookupNode w := by
        rw [Object.execute, hvalue]
        exact if_neg hupdate
      refine ⟨fun h => absurd h (Object.execute_of_run lookupNode hexecute), fun h => absurd ?_ hupdate⟩
      rw [and_eq_true, and_eq_true, hresult, canUpdateIfNewerWithResult_iff]
      exact ⟨⟨h.2.1, h.2.2.1⟩, h.2.2.2⟩

/-- What a build says for itself of whether the command may be updated without being run, its prior value apart. -/
structure MayUpdate (command : ExternalCommand) (b : Build) : Prop where
  notSkipped : ∀ input ∈ b.values, ¬ command.Skips input.2.2
  missesNoOutput : ¬ b.MissesOutput
  allowModifiedOutputs : command.allowModifiedOutputs = true
  countedPresent : CountedPresent lookupNode command b.surroundings

/-- The decision in the last of some builds. -/
theorem reportsUnrun_of_builds {history : List Build} {b : Build}
    (h : (object command).builds (history ++ [b]) = some o) :
    o.ReportsUnrun lookupNode b.surroundings ↔ MayUpdate lookupNode command b ∧
      (∀ b' ∈ history, ¬ b'.MissesOutput) ∧ (b.PriorSuccessful ∨ ∃ b' ∈ history, b'.PriorSuccessful) := by
  have hkept := Object.kept_of_builds h
  obtain ⟨o₁, hhistory, hlast⟩ := bind_eq_some_iff.mp (Object.builds_append.symm.trans h)
  obtain ⟨o₂, hbuild, hnil⟩ := bind_eq_some_iff.mp hlast
  cases hnil
  have hbuilt := Object.built_of_build hbuild
  have hcommand : o.toExternalCommand = command := hkept.command
  have hcommand₁ : o₁.toExternalCommand = command := (Object.kept_of_builds hhistory).command
  rw [reportsUnrun_iff lookupNode hbuilt.skipValue_mem, hbuilt.skipValue, hkept.canUpdateIfNewer, hkept.hasPriorResult,
    hcommand, hcommand₁]
  have hprior : (object command).hasPriorResult = true ∨ (∃ b' ∈ history ++ [b], b'.PriorSuccessful) ↔
      b.PriorSuccessful ∨ ∃ b' ∈ history, b'.PriorSuccessful := by
    rw [or_comm (a := b.PriorSuccessful)]
    simp [object, or_and_right, exists_or]
  rw [hprior, forall_mem_append, forall_mem_singleton]
  constructor
  · rintro ⟨hskips, ⟨-, hhist, hb⟩, hprior, hallow, hcounted⟩
    exact ⟨⟨hskips, hb, hallow, hcounted⟩, hhist, hprior⟩
  · rintro ⟨hmay, hhist, hprior⟩
    exact ⟨hmay.notSkipped, ⟨rfl, hhist, hmay.missesNoOutput⟩, hprior, hmay.allowModifiedOutputs, hmay.countedPresent⟩

/-- The decision in a first build. -/
theorem reportsUnrun_of_build {b : Build} (h : (object command).builds [b] = some o) :
    o.ReportsUnrun lookupNode b.surroundings ↔ MayUpdate lookupNode command b ∧ b.PriorSuccessful := by
  have h' : (object command).builds ([] ++ [b]) = some o := h
  rw [reportsUnrun_of_builds lookupNode h']
  simp

/-! ## What the decision rests on -/

/-- An output that is there; for a command timestamp the epoch counts as its size. -/
def OutputPresent (w : Surroundings) (output : Name) : Prop :=
  (outputInfo lookupNode w.currentEpoch w.getFileInfo output).isMissing = false

/-- The infos of outputs for which the result has no room. -/
def UncountedPresent (command : ExternalCommand) (w : Surroundings) : Prop :=
  let infos := outputInfos lookupNode command w.currentEpoch w.getFileInfo
  ∀ info ∈ infos.drop (infos.length % 2 ^ 32), info.isMissing = false

theorem outputPresent_iff (h : CountedPresent lookupNode command w) :
    (∀ output ∈ command.outputs, OutputPresent lookupNode w output) ↔ UncountedPresent lookupNode command w := by
  have hall : (∀ info ∈ outputInfos lookupNode command w.currentEpoch w.getFileInfo, info.isMissing = false) ↔
      UncountedPresent lookupNode command w := by
    rw [UncountedPresent]
    constructor
    · intro hall info hinfo
      exact hall info (mem_of_mem_drop hinfo)
    · intro hrest info hinfo
      rw [← take_append_drop (_ % 2 ^ 32) (outputInfos lookupNode command w.currentEpoch w.getFileInfo)] at hinfo
      rcases mem_append.mp hinfo with hinfo | hinfo
      · exact h info hinfo
      · exact hrest info hinfo
  rw [← hall, outputInfos, forall_mem_append, forall_mem_map]
  refine ⟨fun houtputs => ⟨houtputs, fun info hinfo => ?_⟩, fun houtputs => houtputs.1⟩
  by_cases hnil : command.outputs = []
  · -- the info that stands for no outputs is counted
    refine h info ?_
    rw [OutputInfos.stored, outputInfos, hnil]
    rw [if_pos hnil] at hinfo
    exact hinfo
  · rw [if_neg hnil] at hinfo
    cases hinfo

/-- What the decision in the last of some builds should rest on. -/
structure DecidesAlone (command : ExternalCommand) (b : Build) (o : Object) : Prop where
  priorSuccessful : o.ReportsUnrun lookupNode b.surroundings → b.PriorSuccessful
  missesNoOutput : o.ReportsUnrun lookupNode b.surroundings → ¬ b.MissesOutput
  outputsPresent : o.ReportsUnrun lookupNode b.surroundings →
    ∀ output ∈ command.outputs, OutputPresent lookupNode b.surroundings output
  alone : ∀ o₀, (object command).builds [b] = some o₀ →
    (o.ReportsUnrun lookupNode b.surroundings ↔ o₀.ReportsUnrun lookupNode b.surroundings)

/-- **Whether a command with modified outputs is run.** In each build of a sequence: the decision rests on this build
    alone, and spares the run only for a good prior value, without missing outputs and with all outputs present,
    exactly when the builds before it do not matter. They matter to a build that may update the command: if its prior
    value was successful, as soon as one of them missed an output; if not, as soon as one of them had a successful
    prior value and none of them missed an output. Besides, no output may be missing among those whose infos are not
    counted, of which there are some from `2 ^ 32` outputs on. -/
theorem decidesAlone_iff {command : ExternalCommand} {history : List Build} {b : Build} {o : Object}
    (hrun : (object command).builds (history ++ [b]) = some o) :
    DecidesAlone lookupNode command b o ↔
      (MayUpdate lookupNode command b →
        (b.PriorSuccessful → (∀ b' ∈ history, ¬ b'.MissesOutput) ∧
          UncountedPresent lookupNode command b.surroundings) ∧
        (¬ b.PriorSuccessful → (∃ b' ∈ history, b'.MissesOutput) ∨ ∀ b' ∈ history, ¬ b'.PriorSuccessful)) := by
  have hlast := reportsUnrun_of_builds lookupNode hrun
  constructor
  · intro halone hmay
    obtain ⟨o₀, hfirst⟩ := Object.exists_builds_singleton hrun
    have heq := halone.alone o₀ hfirst
    rw [reportsUnrun_of_build lookupNode hfirst] at heq
    refine ⟨fun hprior => ?_, fun hprior => ?_⟩
    · -- a first build would be updated, so this one is
      have hreports := heq.mpr ⟨hmay, hprior⟩
      exact ⟨(hlast.mp hreports).2.1, (outputPresent_iff lookupNode hmay.countedPresent).mp
        (halone.outputsPresent hreports)⟩
    · by_contra hnot
      obtain ⟨hnone, hsome⟩ := not_or.mp hnot
      push Not at hnone hsome
      exact hprior (heq.mp (hlast.mpr ⟨hmay, hnone, Or.inr hsome⟩)).2
  · intro hcond
    -- an update rests on the prior value of this build
    have hprior : o.ReportsUnrun lookupNode b.surroundings → b.PriorSuccessful := by
      intro hreports
      obtain ⟨hmay, hnone, hprior⟩ := hlast.mp hreports
      by_contra hnot
      rcases (hcond hmay).2 hnot with ⟨b', hb', hmisses⟩ | hnever
      · exact hnone b' hb' hmisses
      · rcases hprior with hprior | ⟨b', hb', hprior⟩
        · exact hnot hprior
        · exact hnever b' hb' hprior
    refine ⟨hprior, fun hreports => (hlast.mp hreports).1.missesNoOutput, fun hreports => ?_, fun o₀ hfirst => ?_⟩
    · have hmay := (hlast.mp hreports).1
      exact (outputPresent_iff lookupNode hmay.countedPresent).mpr ((hcond hmay).1 (hprior hreports)).2
    · rw [reportsUnrun_of_build lookupNode hfirst]
      constructor
      · intro hreports
        exact ⟨(hlast.mp hreports).1, hprior hreports⟩
      · rintro ⟨hmay, hgood⟩
        exact hlast.mpr ⟨hmay, ((hcond hmay).1 hgood).1, Or.inl hgood⟩

/-! A command that may find its output modified, and three builds. -/

def modified : ExternalCommand := { name := [67], outputs := [[111]], allowModifiedOutputs := true }

/-- The output is there, and the last run was successful. -/
def modifiedBuild : Build where
  priorValue := some (.makeSuccessfulCommand [{ inode := 1 }])
  values := []
  surroundings :=
    { currentEpoch := 2, getFileInfo := fun _ => { inode := 2 }, status := .succeeded,
      getFileInfoAfterwards := fun _ => { inode := 2 } }

/-- The output was removed, so the command is run; it fails, but writes its output. -/
def removedBuild : Build where
  priorValue := some (.makeSuccessfulCommand [{ inode := 2 }])
  values := []
  surroundings :=
    { currentEpoch := 3, getFileInfo := fun _ => {}, status := .failed,
      getFileInfoAfterwards := fun _ => { inode := 3 } }

/-- The build after this failure. -/
def failedBuild : Build where
  priorValue := some .makeFailedCommand
  values := []
  surroundings :=
    { currentEpoch := 4, getFileInfo := fun _ => { inode := 3 }, status := .failed,
      getFileInfoAfterwards := fun _ => { inode := 3 } }

/-- The command with an input, and the value of the input. -/
def compiled : ExternalCommand := { modified with inputs := [[105]] }

def inputValues : List (UInt64 × KeyType × BuildValue) :=
  [(0, (BuildKey.makeNode [105]).key, .makeExistingInput { inode := 1 })]

/-- There is no result yet, so the command is run. -/
def firstBuild : Build := { failedBuild with priorValue := none, values := inputValues }

def sparedBuild : Build := { modifiedBuild with values := inputValues }

/-- The command is run once, then spared, and spared again. -/
theorem decidesAlone_spared :
    ∃ o₁ o₂ o₃, (object compiled).builds [firstBuild] = some o₁ ∧
      ¬ o₁.ReportsUnrun (fun _ => {}) firstBuild.surroundings ∧
      (object compiled).builds ([firstBuild] ++ [sparedBuild]) = some o₂ ∧
      o₂.ReportsUnrun (fun _ => {}) sparedBuild.surroundings ∧
      (object compiled).builds ([firstBuild, sparedBuild] ++ [sparedBuild]) = some o₃ ∧
      DecidesAlone (fun _ => {}) compiled sparedBuild o₃ := by
  have hfirst : (object compiled).builds [firstBuild] = some (object compiled) := rfl
  have hspared : (object compiled).builds ([firstBuild] ++ [sparedBuild]) =
      some { object compiled with hasPriorResult := true } := rfl
  have hrun : (object compiled).builds ([firstBuild, sparedBuild] ++ [sparedBuild]) =
      some { object compiled with hasPriorResult := true } := rfl
  have hkind : ∀ input ∈ inputValues, input.2.2.kind = .existingInput := by decide
  have hmisses : ∀ b' ∈ [firstBuild, sparedBuild], ¬ b'.MissesOutput := by
    rintro b' hb' ⟨input, hinput, hmissing⟩
    have hvalues : b'.values = inputValues := by
      rcases mem_pair.mp hb' with rfl | rfl <;> rfl
    rw [hkind input (hvalues ▸ hinput)] at hmissing
    cases hmissing
  have hmay : MayUpdate (fun _ => {}) compiled sparedBuild :=
    { notSkipped := fun input hinput hskips => by
        have hexisting := hkind input hinput
        rcases hskips with hskips | ⟨hskips, -⟩ <;> rw [hexisting] at hskips <;> cases hskips
      missesNoOutput := hmisses _ (by simp)
      allowModifiedOutputs := rfl
      countedPresent := by
        intro info hinfo
        cases hinfo with
        | head => rfl
        | tail _ hinfo => cases hinfo }
  refine ⟨_, _, _, hfirst, fun hreports => ?_, hspared, ?_, hrun,
    (decidesAlone_iff (fun _ => {}) hrun).mpr fun _ => ⟨fun _ => ⟨hmisses, ?_⟩, fun hprior => ?_⟩⟩
  · obtain ⟨value, hvalue, -⟩ := ((reportsUnrun_of_build _ hfirst).mp hreports).2
    cases hvalue
  · exact (reportsUnrun_of_builds _ hspared).mpr
      ⟨hmay, fun b' hb' => hmisses b' (mem_cons.mpr (.inl (mem_singleton.mp hb'))), .inl ⟨_, rfl, rfl⟩⟩
  · intro info hinfo
    cases hinfo
  · exact absurd ⟨_, rfl, rfl⟩ hprior

/-- **The failure is taken back without a run**: the second build reports the command as successful, since there was a
    successful prior value in the first one. -/
theorem failedBuild_reported_successful :
    ∃ o, (object modified).builds ([removedBuild] ++ [failedBuild]) = some o ∧
      ¬ DecidesAlone (fun _ => {}) modified failedBuild o := by
  refine ⟨{ object modified with hasPriorResult := true }, rfl, fun halone => ?_⟩
  have hreports := (reportsUnrun_iff (fun _ => {}) (o := { object modified with hasPriorResult := true })
    (fun value hvalue => by cases hvalue) failedBuild.surroundings).mpr
      ⟨rfl, rfl, rfl, rfl, fun info hinfo => by cases hinfo with
        | head => rfl
        | tail _ hinfo => cases hinfo⟩
  obtain ⟨value, hvalue, hsuccess⟩ := halone.priorSuccessful hreports
  cases hvalue
  cases hsuccess

end ExternalCommand

end Builra
