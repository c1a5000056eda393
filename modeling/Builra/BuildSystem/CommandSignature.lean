import Builra.Core.Types
import Builra.Lib.Digest

namespace Builra

open List

/-!
# `BuildSystem.CommandSignature` — what the signature of a command determines

The signatures of shell commands and of Swift compiler commands, over an ideal hash. The lists of a command
are combined one after the other without their lengths, the dependency style is combined as a `bool`, and the
optimization settings of a Swift command are not combined at all; `commandSignature_determines` says for
which commands the signature still determines what is run.
-/

/-- What is combined into a signature: `combine` has overloads for strings and `bool`. -/
inductive SignatureItem where
  | string (value : List UInt8)
  | bool (value : Bool)
deriving DecidableEq

/-- `basic::CommandSignature` over any type of values. -/
structure SignatureHash (S : Type) where
  /-- `CommandSignature(string)`. -/
  ofString : List UInt8 → S
  combine : S → SignatureItem → S
  /-- The value 0, for which `isNull` holds. -/
  null : S
  /-- `CommandSignature(1)`. -/
  one : S

namespace SignatureHash

variable {S : Type}

/-- `combine` of a list. -/
def combineList (hash : SignatureHash S) (code : S) (values : List (List UInt8)) : S :=
  values.foldl (fun code value => hash.combine code (.string value)) code

/-- The ideal hash: nothing is lost, and no combined value is null. -/
structure Ideal (hash : SignatureHash S) : Prop where
  lossless : Digest.Lossless hash.ofString hash.combine
  combine_ne_null : ∀ s i, hash.combine s i ≠ hash.null

/-- The items of a list of strings. -/
def strings (values : List (List UInt8)) : List SignatureItem := values.map SignatureItem.string

theorem combineList_eq (hash : SignatureHash S) (code : S) (values : List (List UInt8)) :
    hash.combineList code values = (strings values).foldl hash.combine code := by
  simp [combineList, strings, foldl_map]

/-- Strings end where the first `bool` stands. -/
theorem strings_append_inj {l l' : List (List UInt8)} {b b' : Bool} {rest rest' : List SignatureItem} :
    strings l ++ .bool b :: rest = strings l' ++ .bool b' :: rest' ↔ l = l' ∧ b = b' ∧ rest = rest' := by
  constructor
  · intro h
    induction l generalizing l' with
    | nil =>
      cases l' with
      | nil => simpa [strings] using h
      | cons s l' => simp [strings] at h
    | cons s l ih =>
      cases l' with
      | nil => simp [strings] at h
      | cons s' l' =>
        simp only [strings, map_cons, cons_append, List.cons.injEq,
          SignatureItem.string.injEq] at h
        obtain ⟨rfl, h⟩ := h
        obtain ⟨rfl, hb, hrest⟩ := ih h
        exact ⟨rfl, hb, hrest⟩
  · rintro ⟨rfl, rfl, rfl⟩
    rfl

end SignatureHash

open SignatureHash

variable {S : Type}

/-! ## External commands -/

/-- `ExternalCommand`, as far as its signature goes; nodes are given by their names. -/
structure ExternalCommand where
  name : List UInt8
  inputs : List (List UInt8) := []
  outputs : List (List UInt8) := []
  allowMissingInputs : Bool := false
  allowModifiedOutputs : Bool := false
  alwaysOutOfDate : Bool := false
deriving DecidableEq

namespace ExternalCommand

/-- `ExternalCommand::getSignature`. -/
def getSignature (hash : SignatureHash S) (c : ExternalCommand) : S :=
  let code := hash.ofString c.name
  let code := hash.combineList code c.inputs
  let code := hash.combineList code c.outputs
  let code := hash.combine code (.bool c.allowMissingInputs)
  let code := hash.combine code (.bool c.allowModifiedOutputs)
  hash.combine code (.bool c.alwaysOutOfDate)

/-- Two commands with the same flags whose inputs and outputs form the same list. -/
structure Joined (c c' : ExternalCommand) : Prop where
  name : c.name = c'.name
  files : c.inputs ++ c.outputs = c'.inputs ++ c'.outputs
  allowMissingInputs : c.allowMissingInputs = c'.allowMissingInputs
  allowModifiedOutputs : c.allowModifiedOutputs = c'.allowModifiedOutputs
  alwaysOutOfDate : c.alwaysOutOfDate = c'.alwaysOutOfDate

/-- Two commands with the same inputs, outputs and flags. -/
structure Same (c c' : ExternalCommand) : Prop where
  inputs : c.inputs = c'.inputs
  outputs : c.outputs = c'.outputs
  allowMissingInputs : c.allowMissingInputs = c'.allowMissingInputs
  allowModifiedOutputs : c.allowModifiedOutputs = c'.allowModifiedOutputs
  alwaysOutOfDate : c.alwaysOutOfDate = c'.alwaysOutOfDate

/-- The items combined by `ExternalCommand::getSignature`, followed by others. -/
def items (c : ExternalCommand) (rest : List SignatureItem) : List SignatureItem :=
  strings (c.inputs ++ c.outputs) ++ .bool c.allowMissingInputs ::
    .bool c.allowModifiedOutputs :: .bool c.alwaysOutOfDate :: rest

theorem foldl_getSignature (hash : SignatureHash S) (c : ExternalCommand) (rest : List SignatureItem) :
    rest.foldl hash.combine (c.getSignature hash) = (c.items rest).foldl hash.combine (hash.ofString c.name) := by
  simp [getSignature, items, combineList_eq, strings]

theorem items_inj {c c' : ExternalCommand} {rest rest' : List SignatureItem} :
    c.name = c'.name ∧ c.items rest = c'.items rest' ↔ c.Joined c' ∧ rest = rest' := by
  rw [items, items, strings_append_inj]
  simp only [List.cons.injEq, SignatureItem.bool.injEq]
  constructor
  · rintro ⟨hname, hfiles, h₁, h₂, h₃, hrest⟩
    exact ⟨⟨hname, hfiles, h₁, h₂, h₃⟩, hrest⟩
  · rintro ⟨⟨hname, hfiles, h₁, h₂, h₃⟩, hrest⟩
    exact ⟨hname, hfiles, h₁, h₂, h₃, hrest⟩

/-- Where inputs and outputs are cut at the same place, they are the same. -/
theorem Joined.same {c c' : ExternalCommand} (h : c.Joined c') (hcut : c.inputs.length = c'.inputs.length) :
    c.Same c' := by
  obtain ⟨hin, hout⟩ := append_inj h.files hcut
  exact ⟨hin, hout, h.allowMissingInputs, h.allowModifiedOutputs, h.alwaysOutOfDate⟩

end ExternalCommand

/-! ## Shell commands -/

/-- `ShellCommand::DepsStyle`. -/
inductive DepsStyle where
  | unused
  | makefile
  | dependencyInfo
  | makefileIgnoringSubsequentOutputs
deriving DecidableEq, Repr

/-- `int(depsStyle)`. -/
def DepsStyle.toInt : DepsStyle → Int
  | unused => 0
  | makefile => 1
  | dependencyInfo => 2
  | makefileIgnoringSubsequentOutputs => 3

/-- `ShellCommand`, as far as its signature and its invocation go. -/
structure ShellCommand extends ExternalCommand where
  args : List (List UInt8) := []
  signatureData : List UInt8 := []
  env : List (List UInt8 × List UInt8) := []
  depsPaths : List (List UInt8) := []
  depsStyle : DepsStyle := .unused
  inheritEnv : Bool := true
  canSafelyInterrupt : Bool := true
deriving DecidableEq

namespace ShellCommand

variable (hash : SignatureHash S)

/-- `combine(int)`: the only overload an `int` converts to is the one for `bool`. -/
def combineInt (code : S) (value : Int) : S :=
  hash.combine code (.bool (value ≠ 0))

/-- `ShellCommand::getSignature`, when no signature is cached yet. -/
def getSignature [DecidableEq S] (c : ShellCommand) : S :=
  let code := c.toExternalCommand.getSignature hash
  let code :=
    if c.signatureData ≠ [] then hash.combine code (.string c.signatureData)
    else
      let code := hash.combineList code c.args
      let code := c.env.foldl (fun code entry =>
        hash.combine (hash.combine code (.string entry.1)) (.string entry.2)) code
      let code := hash.combineList code c.depsPaths
      let code := combineInt hash code c.depsStyle.toInt
      let code := combineInt hash code (if c.inheritEnv then 1 else 0)
      combineInt hash code (if c.canSafelyInterrupt then 1 else 0)
  if code = hash.null then hash.one else code

variable (env : List (List UInt8 × List UInt8))

/-- The environment as it is combined. -/
def envStrings : List (List UInt8) :=
  env.flatMap (fun entry => [entry.1, entry.2])

/-- Two commands whose lists are the same when written one after the other, with the same flags, both with
    or both without a dependency style. -/
structure Joined (c c' : ShellCommand) : Prop where
  external : c.toExternalCommand.Joined c'.toExternalCommand
  strings : c.args ++ (envStrings c.env ++ c.depsPaths) = c'.args ++ (envStrings c'.env ++ c'.depsPaths)
  depsStyle : c.depsStyle = .unused ↔ c'.depsStyle = .unused
  inheritEnv : c.inheritEnv = c'.inheritEnv
  canSafelyInterrupt : c.canSafelyInterrupt = c'.canSafelyInterrupt

/-- Two commands that are invoked in the same way. -/
structure SameInvocation (c c' : ShellCommand) : Prop where
  external : c.toExternalCommand.Same c'.toExternalCommand
  args : c.args = c'.args
  env : c.env = c'.env
  inheritEnv : c.inheritEnv = c'.inheritEnv
  canSafelyInterrupt : c.canSafelyInterrupt = c'.canSafelyInterrupt
  depsPaths : c.depsPaths = c'.depsPaths
  depsStyle : c.depsStyle = c'.depsStyle

/-- Two commands whose lists are cut at the same places, and that do not use two different dependency
    styles. -/
structure SameCut (c c' : ShellCommand) : Prop where
  inputs : c.inputs.length = c'.inputs.length
  args : c.args.length = c'.args.length
  env : c.env.length = c'.env.length
  depsStyle : c.depsStyle = c'.depsStyle ∨ c.depsStyle = .unused ∨ c'.depsStyle = .unused

/-- The items combined after those of the external command. -/
def items (c : ShellCommand) : List SignatureItem :=
  SignatureHash.strings (c.args ++ (envStrings c.env ++ c.depsPaths)) ++ .bool (c.depsStyle.toInt ≠ 0) ::
    [.bool c.inheritEnv, .bool c.canSafelyInterrupt]

theorem foldl_env (code : S) (env : List (List UInt8 × List UInt8)) :
    env.foldl (fun code entry =>
        hash.combine (hash.combine code (.string entry.1)) (.string entry.2)) code =
      (SignatureHash.strings (envStrings env)).foldl hash.combine code := by
  induction env generalizing code with
  | nil => rfl
  | cons entry env ih =>
    rw [foldl_cons, ih]
    rfl

/-- Without signature data the signature is the digest of the items: a combined value is never null. -/
theorem getSignature_eq [DecidableEq S] (hH : hash.Ideal) (c : ShellCommand)
    (hdata : c.signatureData = []) :
    c.getSignature hash =
      (c.toExternalCommand.items c.items).foldl hash.combine (hash.ofString c.name) := by
  rw [← c.toExternalCommand.foldl_getSignature hash c.items]
  have hint : ∀ (code : S) (b : Bool), combineInt hash code (if b then 1 else 0) = hash.combine code (.bool b) := by
    intro code b
    cases b <;> rfl
  have hempty : ¬ (c.signatureData ≠ []) := not_not_intro hdata
  unfold getSignature
  dsimp only
  rw [if_neg hempty, hint, hint, if_neg (hH.combine_ne_null _ _)]
  simp [items, combineList_eq, foldl_env, SignatureHash.strings, combineInt]

theorem depsStyle_ne_zero_eq {s s' : DepsStyle} :
    (decide (s.toInt ≠ 0) = decide (s'.toInt ≠ 0)) ↔ (s = .unused ↔ s' = .unused) := by
  cases s <;> cases s' <;> decide

/-- **Equal signatures mean equal joined lists and equal flags, no more.** -/
theorem getSignature_eq_iff [DecidableEq S] (hH : hash.Ideal) (c c' : ShellCommand)
    (hdata : c.signatureData = []) (hdata' : c'.signatureData = []) :
    c.getSignature hash = c'.getSignature hash ↔ c.Joined c' := by
  rw [getSignature_eq hash hH c hdata, getSignature_eq hash hH c' hdata', hH.lossless.foldl_eq_iff,
    ExternalCommand.items_inj]
  unfold items
  rw [strings_append_inj, depsStyle_ne_zero_eq]
  simp only [List.cons.injEq, SignatureItem.bool.injEq, and_true]
  constructor
  · rintro ⟨hext, hstrings, hstyle, hinherit, hsafe⟩
    exact ⟨hext, hstrings, hstyle, hinherit, hsafe⟩
  · rintro ⟨hext, hstrings, hstyle, hinherit, hsafe⟩
    exact ⟨hext, hstrings, hstyle, hinherit, hsafe⟩

theorem length_envStrings :
    (envStrings env).length = 2 * env.length := by
  induction env with
  | nil => rfl
  | cons entry env ih =>
    simp only [envStrings, flatMap_cons, length_append, length_cons, length_nil] at ih ⊢
    omega

theorem envStrings_inj {env env' : List (List UInt8 × List UInt8)} (h : envStrings env = envStrings env') :
    env = env' := by
  induction env generalizing env' with
  | nil =>
    cases env' with
    | nil => rfl
    | cons entry env' => simp [envStrings] at h
  | cons entry env ih =>
    cases env' with
    | nil => simp [envStrings] at h
    | cons entry' env' =>
      simp only [envStrings, flatMap_cons, cons_append, nil_append, List.cons.injEq] at h
      obtain ⟨hkey, hvalue, htail⟩ := h
      rw [Prod.ext hkey hvalue, ih htail]

theorem Joined.sameInvocation {c c' : ShellCommand} (h : c.Joined c') (hcut : c.SameCut c') :
    c.SameInvocation c' := by
  obtain ⟨hargs, hrest⟩ := append_inj h.strings hcut.args
  have hlen : (envStrings c.env).length = (envStrings c'.env).length := by
    rw [length_envStrings, length_envStrings, hcut.env]
  obtain ⟨henv, hdeps⟩ := append_inj hrest hlen
  have hstyle : c.depsStyle = c'.depsStyle := by
    rcases hcut.depsStyle with heq | hun | hun
    · exact heq
    · rw [hun, h.depsStyle.mp hun]
    · rw [hun, h.depsStyle.mpr hun]
  exact ⟨h.external.same hcut.inputs, hargs, envStrings_inj henv, h.inheritEnv, h.canSafelyInterrupt, hdeps, hstyle⟩

theorem SameInvocation.sameCut {c c' : ShellCommand} (h : c.SameInvocation c') : c.SameCut c' where
  inputs := by rw [h.external.inputs]
  args := by rw [h.args]
  env := by rw [h.env]
  depsStyle := .inl h.depsStyle

end ShellCommand

/-! ## Swift compiler commands -/

/-- The functions of `toolchain::sys::path` that are used. -/
structure PathOps where
  append : List UInt8 → List UInt8 → List UInt8
  parentPath : List UInt8 → List UInt8
  stem : List UInt8 → List UInt8

/-- A string literal of the source. -/
def literal (s : String) : List UInt8 := s.toUTF8.toList

/-- `SwiftCompilerShellCommand`. -/
structure SwiftCompilerShellCommand extends ExternalCommand where
  executable : List UInt8 := literal "swiftc"
  moduleName : List UInt8 := []
  moduleAliases : List (List UInt8) := []
  moduleOutputPath : List UInt8 := []
  sourcesList : List (List UInt8) := []
  objectsList : List (List UInt8) := []
  importPaths : List (List UInt8) := []
  tempsPath : List UInt8 := []
  otherArgs : List (List UInt8) := []
  isLibrary : Bool := false
  enableWholeModuleOptimization : Bool := false
  numThreads : List UInt8 := literal "0"
deriving DecidableEq

namespace SwiftCompilerShellCommand

/-- `SwiftCompilerShellCommand::getSignature`. -/
def getSignature (hash : SignatureHash S) (c : SwiftCompilerShellCommand) : S :=
  let code := c.toExternalCommand.getSignature hash
  let code := hash.combine code (.string c.executable)
  let code := hash.combine code (.string c.moduleName)
  let code := hash.combineList code c.moduleAliases
  let code := hash.combine code (.string c.moduleOutputPath)
  let code := hash.combineList code c.sourcesList
  let code := hash.combineList code c.objectsList
  let code := hash.combineList code c.importPaths
  let code := hash.combine code (.string c.tempsPath)
  let code := hash.combineList code c.otherArgs
  hash.combine code (.bool c.isLibrary)

/-- `SwiftCompilerShellCommand::getOutputFileMapPath`. -/
def getOutputFileMapPath (paths : PathOps) (c : SwiftCompilerShellCommand) : List UInt8 :=
  paths.append c.tempsPath (literal "output-file-map.json")

variable (c : SwiftCompilerShellCommand)

/-- `SwiftCompilerShellCommand::constructCommandLineArgs`. -/
def constructCommandLineArgs (outputFileMapPath : List UInt8) :
    List (List UInt8) :=
  [c.executable, literal "-module-name", c.moduleName] ++
    c.moduleAliases.flatMap (fun nameAndAlias => [literal "-module-alias", nameAndAlias]) ++
    [literal "-emit-dependencies"] ++
    (if c.moduleOutputPath ≠ [] then
      [literal "-emit-module", literal "-emit-module-path", c.moduleOutputPath] else []) ++
    [literal "-output-file-map", outputFileMapPath] ++
    (if c.isLibrary then [literal "-parse-as-library"] else []) ++
    (if c.enableWholeModuleOptimization then
      [literal "-whole-module-optimization", literal "-num-threads", c.numThreads]
    else [literal "-incremental"]) ++
    [literal "-c"] ++
    c.sourcesList ++
    c.importPaths.flatMap (fun path => [literal "-I", path]) ++
    c.otherArgs

/-- The dependency files of `SwiftCompilerShellCommand::writeOutputFileMap`. -/
def depsFiles (paths : PathOps) (c : SwiftCompilerShellCommand) : List (List UInt8) :=
  if c.enableWholeModuleOptimization then [paths.append c.tempsPath (c.moduleName ++ literal ".d")]
  else (c.sourcesList.zip c.objectsList).map (fun entry =>
    paths.append (paths.parentPath entry.2) (paths.stem entry.1 ++ literal ".d"))

/-- Two commands with the same flags whose lists are the same when written one after the other. -/
structure Joined (c c' : SwiftCompilerShellCommand) : Prop where
  external : c.toExternalCommand.Joined c'.toExternalCommand
  executable : c.executable = c'.executable
  moduleName : c.moduleName = c'.moduleName
  strings : c.moduleAliases ++ ([c.moduleOutputPath] ++ (c.sourcesList ++ (c.objectsList ++ (c.importPaths ++
      ([c.tempsPath] ++ c.otherArgs))))) =
    c'.moduleAliases ++ ([c'.moduleOutputPath] ++ (c'.sourcesList ++ (c'.objectsList ++ (c'.importPaths ++
      ([c'.tempsPath] ++ c'.otherArgs)))))
  isLibrary : c.isLibrary = c'.isLibrary

/-- Two commands that are invoked in the same way. The environment is inherited, and the dependencies are
    read as a makefile, whatever the command. -/
structure SameInvocation (paths : PathOps) (c c' : SwiftCompilerShellCommand) : Prop where
  external : c.toExternalCommand.Same c'.toExternalCommand
  args : c.constructCommandLineArgs (c.getOutputFileMapPath paths) =
    c'.constructCommandLineArgs (c'.getOutputFileMapPath paths)
  depsPaths : c.depsFiles paths = c'.depsFiles paths

/-- Two commands whose lists are cut at the same places. -/
structure SameCut (c c' : SwiftCompilerShellCommand) : Prop where
  inputs : c.inputs.length = c'.inputs.length
  moduleAliases : c.moduleAliases.length = c'.moduleAliases.length
  sourcesList : c.sourcesList.length = c'.sourcesList.length
  objectsList : c.objectsList.length = c'.objectsList.length
  importPaths : c.importPaths.length = c'.importPaths.length

/-- Two commands with the same optimization settings; the number of threads counts for whole modules only. -/
structure SameOptimization (c c' : SwiftCompilerShellCommand) : Prop where
  optimization : c.enableWholeModuleOptimization = c'.enableWholeModuleOptimization
  numThreads : c.enableWholeModuleOptimization = true → c.numThreads = c'.numThreads

/-- The items combined after those of the external command. -/
def items : List SignatureItem :=
  .string c.executable :: .string c.moduleName ::
    (SignatureHash.strings (c.moduleAliases ++ ([c.moduleOutputPath] ++ (c.sourcesList ++ (c.objectsList ++
      (c.importPaths ++ ([c.tempsPath] ++ c.otherArgs)))))) ++ .bool c.isLibrary :: [])

theorem getSignature_eq_iff (hash : SignatureHash S) (hH : hash.Ideal) (c c' : SwiftCompilerShellCommand) :
    c.getSignature hash = c'.getSignature hash ↔ c.Joined c' := by
  have heq : ∀ d : SwiftCompilerShellCommand, d.getSignature hash =
      (d.toExternalCommand.items d.items).foldl hash.combine (hash.ofString d.name) := by
    intro d
    rw [← d.toExternalCommand.foldl_getSignature hash d.items]
    simp [getSignature, items, combineList_eq, SignatureHash.strings]
  rw [heq, heq, hH.lossless.foldl_eq_iff, ExternalCommand.items_inj]
  unfold items
  rw [List.cons.injEq, List.cons.injEq, strings_append_inj]
  simp only [SignatureItem.string.injEq, and_true]
  constructor
  · rintro ⟨hext, hexe, hname, hstrings, hlib⟩
    exact ⟨hext, hexe, hname, hstrings, hlib⟩
  · rintro ⟨hext, hexe, hname, hstrings, hlib⟩
    exact ⟨hext, hexe, hname, hstrings, hlib⟩

/-- The arguments that depend on the optimization settings. -/
def optimizationArgs : List (List UInt8) :=
  if c.enableWholeModuleOptimization then
    [literal "-whole-module-optimization", literal "-num-threads", c.numThreads]
  else [literal "-incremental"]

variable {c c' : SwiftCompilerShellCommand}

theorem optimizationArgs_eq (h : c.SameOptimization c') :
    c.optimizationArgs = c'.optimizationArgs := by
  unfold optimizationArgs
  rw [← h.optimization]
  by_cases hwmo : c.enableWholeModuleOptimization = true
  · rw [if_pos hwmo, if_pos hwmo, h.numThreads hwmo]
  · rw [if_neg hwmo, if_neg hwmo]

theorem sameOptimization_of_args {rest : List (List UInt8)}
    (h : c.optimizationArgs ++ rest = c'.optimizationArgs ++ rest) : c.SameOptimization c' := by
  have hargs := append_cancel_right h
  unfold optimizationArgs at hargs
  constructor
  · cases hwmo : c.enableWholeModuleOptimization <;> cases hwmo' : c'.enableWholeModuleOptimization
    · rfl
    · simp [hwmo, hwmo'] at hargs
    · simp [hwmo, hwmo'] at hargs
    · rfl
  · intro hwmo
    cases hwmo' : c'.enableWholeModuleOptimization
    · simp [hwmo, hwmo'] at hargs
    · simpa [hwmo, hwmo'] using hargs

/-- Joined lists that are cut at the same places are the same lists. -/
theorem Joined.lists (h : c.Joined c') (hcut : c.SameCut c') :
    c.moduleAliases = c'.moduleAliases ∧ c.moduleOutputPath = c'.moduleOutputPath ∧
      c.sourcesList = c'.sourcesList ∧ c.objectsList = c'.objectsList ∧ c.importPaths = c'.importPaths ∧
      c.tempsPath = c'.tempsPath ∧ c.otherArgs = c'.otherArgs := by
  -- peel the joined list, one list at a time
  obtain ⟨haliases, hrest⟩ := append_inj h.strings hcut.moduleAliases
  obtain ⟨hmodule, hrest⟩ := append_inj hrest (by simp)
  obtain ⟨hsources, hrest⟩ := append_inj hrest hcut.sourcesList
  obtain ⟨hobjects, hrest⟩ := append_inj hrest hcut.objectsList
  obtain ⟨himports, hrest⟩ := append_inj hrest hcut.importPaths
  obtain ⟨htemps, hother⟩ := append_inj hrest (by simp)
  exact ⟨haliases, by simpa using hmodule, hsources, hobjects, himports, by simpa using htemps, hother⟩

/-- **Commands cut at the same places are invoked in the same way exactly under the same optimization
    settings.** -/
theorem Joined.sameInvocation_iff (paths : PathOps) (h : c.Joined c') (hcut : c.SameCut c') :
    c.SameInvocation paths c' ↔ c.SameOptimization c' := by
  obtain ⟨haliases, hmodule, hsources, hobjects, himports, htemps, hother⟩ := h.lists hcut
  constructor
  · intro hsame
    have hargs := hsame.args
    unfold constructCommandLineArgs getOutputFileMapPath at hargs
    rw [h.executable, h.moduleName, haliases, hmodule, hsources, himports, htemps, hother, h.isLibrary] at hargs
    simp only [append_assoc, append_cancel_left_eq] at hargs
    exact sameOptimization_of_args hargs
  · intro hopt
    constructor
    · exact h.external.same hcut.inputs
    · have hoptArgs := optimizationArgs_eq hopt
      unfold optimizationArgs at hoptArgs
      unfold constructCommandLineArgs getOutputFileMapPath
      rw [hoptArgs, h.executable, h.moduleName, haliases, hmodule, hsources, himports, htemps, hother,
        h.isLibrary]
    · unfold depsFiles
      rw [hopt.optimization, htemps, h.moduleName, hsources, hobjects]

end SwiftCompilerShellCommand

/-! ## The free hash -/

namespace SignatureHash

/-- The free hash: a signature is the list of what was combined. -/
def free : SignatureHash (List UInt8 × List SignatureItem) where
  ofString name := (name, [])
  combine code item := (code.1, code.2 ++ [item])
  null := ([], [])
  one := ([], [])

theorem free_ideal : free.Ideal where
  lossless :=
    { start_injective := by
        intro a a' h
        exact congrArg Prod.fst h
      extend_injective := by
        intro s s' i i' h
        simp only [free, Prod.mk.injEq] at h
        obtain ⟨hname, hitems⟩ := h
        obtain ⟨hitems, hlast⟩ := append_inj' hitems rfl
        exact ⟨Prod.ext hname hitems, by simpa using hlast⟩
      start_ne_extend := by
        intro a s i h
        simp [free] at h }
  combine_ne_null := by
    intro s i h
    simp [free] at h

end SignatureHash

/-! ## What a signature determines -/

/-- **Signatures and invocations.** A signature determines the invocation of a shell command exactly when two
    commands whose lists join to the same list, with the same flags, have them cut at the same places and use
    one dependency style. For Swift compiler commands the same places and the same optimization settings are
    enough, and between commands cut at the same places the settings are needed. -/
theorem commandSignature_determines (hash : SignatureHash S) [DecidableEq S] (hH : hash.Ideal) (paths : PathOps) :
    (∀ c c' : ShellCommand, c.signatureData = [] → c'.signatureData = [] →
      ((c.getSignature hash = c'.getSignature hash → c.SameInvocation c') ↔ (c.Joined c' → c.SameCut c'))) ∧
    (∀ c c' : SwiftCompilerShellCommand, (c.Joined c' → c.SameCut c' ∧ c.SameOptimization c') →
      c.getSignature hash = c'.getSignature hash → c.SameInvocation paths c') ∧
    (∀ c c' : SwiftCompilerShellCommand, c.SameCut c' →
      ((c.getSignature hash = c'.getSignature hash → c.SameInvocation paths c') ↔
        (c.Joined c' → c.SameOptimization c'))) := by
  refine ⟨?_, ?_, ?_⟩
  · intro c c' hdata hdata'
    rw [ShellCommand.getSignature_eq_iff hash hH c c' hdata hdata']
    constructor
    · intro h hjoined
      exact (h hjoined).sameCut
    · intro h hjoined
      exact hjoined.sameInvocation (h hjoined)
  · intro c c' h heq
    have hjoined := (SwiftCompilerShellCommand.getSignature_eq_iff hash hH c c').mp heq
    obtain ⟨hcut, hopt⟩ := h hjoined
    exact (hjoined.sameInvocation_iff paths hcut).mpr hopt
  · intro c c' hcut
    rw [SwiftCompilerShellCommand.getSignature_eq_iff hash hH c c']
    constructor
    · intro h hjoined
      exact (hjoined.sameInvocation_iff paths hcut).mp (h hjoined)
    · intro h hjoined
      exact (hjoined.sameInvocation_iff paths hcut).mpr (h hjoined)

/-- Paths joined by a slash, as far as relative file names go. -/
def PathOps.simple : PathOps where
  append path component := if path = [] then component else path ++ (47 :: component)
  parentPath path := ((path.reverse.dropWhile (· ≠ 47)).drop 1).reverse
  stem path := ((path.reverse.takeWhile (· ≠ 47)).reverse).takeWhile (· ≠ 46)

/-- The commands `cc a.c` and `cc b.c` have different signatures; so have Swift commands with different
    sources. -/
theorem commandSignature_determines_source :
    ({ name := [1], args := [literal "cc", literal "a.c"] } : ShellCommand).getSignature free ≠
      ({ name := [1], args := [literal "cc", literal "b.c"] } : ShellCommand).getSignature free ∧
    ({ name := [1], sourcesList := [literal "a"] } : SwiftCompilerShellCommand).getSignature free ≠
      ({ name := [1], sourcesList := [literal "b"] } : SwiftCompilerShellCommand).getSignature free := by
  obtain ⟨hshell, -, hswift⟩ := commandSignature_determines free free_ideal PathOps.simple
  constructor
  · intro heq
    have hsame := (hshell _ _ rfl rfl).mpr (fun h => absurd h.strings (by decide +kernel)) heq
    exact absurd hsame.args (by decide +kernel)
  · intro heq
    have hsame := (hswift { name := [1], sourcesList := [literal "a"] } { name := [1], sourcesList := [literal "b"] }
      ⟨rfl, rfl, rfl, rfl, rfl⟩).mpr (fun h => absurd h.strings (by decide +kernel)) heq
    exact absurd hsame.args (by decide +kernel)

/-- **Three pairs with one signature:** the environment `K=V` and the arguments `K` and `V`; two dependency
    styles; and a Swift command with and without whole module optimization. -/
theorem commandSignature_collides :
    (let c : ShellCommand := { name := [1], args := [[2], [75], [86]] }
     let c' : ShellCommand := { name := [1], args := [[2]], env := [([75], [86])] }
     c.signatureData = [] ∧ c'.signatureData = [] ∧ c.getSignature free = c'.getSignature free ∧
       ¬ c.SameInvocation c') ∧
    (let c : ShellCommand := { name := [1], args := [[2]], depsPaths := [[3]], depsStyle := .makefile }
     let c' : ShellCommand := { name := [1], args := [[2]], depsPaths := [[3]], depsStyle := .dependencyInfo }
     c.signatureData = [] ∧ c'.signatureData = [] ∧ c.getSignature free = c'.getSignature free ∧
       ¬ c.SameInvocation c') ∧
    (let c : SwiftCompilerShellCommand := { name := [1], moduleName := [2], sourcesList := [[3]], objectsList := [[4]] }
     let c' : SwiftCompilerShellCommand := { c with enableWholeModuleOptimization := true }
     c.getSignature free = c'.getSignature free ∧ ¬ c.SameInvocation PathOps.simple c') := by
  refine ⟨⟨rfl, rfl, by decide +kernel, ?_⟩, ⟨rfl, rfl, by decide +kernel, ?_⟩, ⟨by decide +kernel, ?_⟩⟩
  · intro h
    exact absurd h.env (by decide +kernel)
  · intro h
    exact absurd h.depsStyle (by decide +kernel)
  · intro h
    exact absurd h.args (by decide +kernel)

end Builra
