import Builra.Macro.ConfigFileParser
import Builra.Util.OrderedSet
import Builra.Util.Path

namespace Builra.Macro.ConfigFile

/-!
# `Macro.ConfigFileLoader` — the loader of configuration files

`MacroConfigFileLoader` runs a parser on the start file, with a delegate that answers an inclusion with a parser
for the included file. All delegates of a load share one table, one list of diagnostics and one ordered set of
the files that are being parsed. The file system is read only; `resolvedPath` resolves symbolic links, or
normalizes a path for which that fails.

For what is said about a load, every call of a delegate is recorded with the files that are being parsed at
that moment and with the files the delegate takes for these.
-/

/-- The file system, as far as the loader asks it. -/
structure FSProxy where
  fileExists : Text → Bool
  read : Text → Option Text
  resolvedPath : Text → Text

/-- A file that is being parsed. -/
structure AncestorInclude where
  path : Text
  resolvedPath : Text

instance : BEq AncestorInclude := ⟨fun lhs rhs => lhs.resolvedPath == rhs.resolvedPath⟩

def FSProxy.ancestorInclude (fs : FSProxy) (path : Text) : AncestorInclude := ⟨path, fs.resolvedPath path⟩

/-- What `foundMacroValueAssignment` pushes to the table. -/
structure Assignment where
  macroName : Text
  conditions : List (Text × Text)
  value : Text
  path : Text
  startLine : Nat
  endLine : Nat
  startColumn : Nat
  endColumn : Nat
deriving DecidableEq

/-- `lookupOrDeclareMacro` and `declareConditionParameter` take no empty names. -/
def Assignment.isDeclarable (assignment : Assignment) : Bool :=
  assignment.macroName ≠ [] && assignment.conditions.all fun condition => condition.1 ≠ []

/-! ## Diagnostics -/

inductive InclusionKind where
  | missingIncludedFile
  | cyclicIncludeFileDirective
deriving DecidableEq

/-- The texts of the diagnostics on inclusions. -/
inductive InclusionMessage where
  | noSearchPaths (fileName : Text)
  | notInSearchPaths (fileName : Text)
  /-- The files of the cycle are named by base name and, in the details, by path. -/
  | wouldCreateCycle (pathToInclude : AncestorInclude) (parserPath : Text) (cycle : List AncestorInclude)
  | doesNotExist (fileName : Text)
  | unableToRead (path : Text)

inductive LoadDiagnostic where
  | parsing (diagnostic : MacroConfigFileDiagnostic)
  | inclusion (kind : InclusionKind) (level : DiagnosticLevel) (message : InclusionMessage) (lineNumber : Nat)

/-! ## The shared objects -/

/-- What the delegate makes of an inclusion. -/
inductive Outcome where
  /-- The path is not found in the search paths. -/
  | notFound
  | cyclic (path : Text)
  | nonexistent (path : Text)
  | unreadable (path : Text)
  | found (path data : Text)
deriving DecidableEq

inductive Called where
  | handleDiagnostic (diagnostic : LoadDiagnostic)
  | foundPreprocessorInclusion (fileName : Text) (optional : Bool) (outcome : Outcome)
  | endPreprocessorInclusion
  | foundMacroValueAssignment (assignment : Assignment)

/-- A call of a delegate, the files that are being parsed at that moment, and the paths of `ancestorIncludes`. -/
structure Callback where
  called : Called
  chain : List Text
  ancestorIncludes : List Text

/-- The objects that the delegates of a load share. -/
structure Shared where
  table : List Assignment
  diagnostics : List (Text × LoadDiagnostic)
  nestedConfigurations : List Text
  ancestorIncludes : OrderedSet AncestorInclude
  callbacks : List Callback

def Shared.record (shared : Shared) (called : Called) (chain : List Text) (ancestorIncludes : OrderedSet AncestorInclude) :
    Shared :=
  { shared with callbacks := shared.callbacks ++ [⟨called, chain, ancestorIncludes.elements.map (·.path)⟩] }

/-- A delegate, without the shared objects. -/
structure Delegate where
  basePath : Option Text
  searchPaths : List Text

def Delegate.allSearchPaths (delegate : Delegate) : List Text :=
  match delegate.basePath with
  | some basePath => basePath :: delegate.searchPaths
  | none => delegate.searchPaths

/-- The delegate of the parser for an included file. -/
def Delegate.nested (delegate : Delegate) (path : Text) : Delegate := ⟨some (Path.dirname path), delegate.allSearchPaths⟩

/-! ## Finding the included file -/

/-- `replacingOccurrences(of:with:)`; the first argument counts what is left of an occurrence. -/
def replacingOccurrences (target replacement : Text) : Nat → Text → Text
  | _, [] => []
  | 0, c :: rest =>
    if target <+: c :: rest then replacement ++ replacingOccurrences target replacement (target.length - 1) rest
    else c :: replacingOccurrences target replacement 0 rest
  | skip + 1, _ :: rest => replacingOccurrences target replacement skip rest

def xcconfigSuffix : Text := text ".xcconfig"

section Loader

variable (fs : FSProxy) (developerPath : Text)

/-- The special case of `<DEVELOPER_DIR>`. -/
def resolveDeveloperDir (path : Text) : Text :=
  if text "<DEVELOPER_DIR>" <+: path then replacingOccurrences (text "<DEVELOPER_DIR>") developerPath 0 path else path

/-- The loop over the search paths: the first path at which the file is found. -/
def findInSearchPaths (path : Text) : List Text → Option Text
  | [] => none
  | spath :: rest =>
    if fs.fileExists (Path.join spath path) then some (Path.join spath path)
    -- the file extension is optional
    else if Path.fileExtension path = [] ∧ fs.fileExists (Path.join spath (path ++ xcconfigSuffix)) then
      some (Path.join spath (path ++ xcconfigSuffix))
    else findInSearchPaths path rest

variable (delegate : Delegate)

/-- The absolute path of the included file. -/
def locate (fileName : Text) : Except InclusionMessage Text :=
  let path := resolveDeveloperDir developerPath fileName
  if !Path.isAbsolute path then
    if delegate.allSearchPaths = [] then .error (.noSearchPaths fileName)
    else
      let path := (findInSearchPaths fs path delegate.allSearchPaths).getD path
      if !Path.isAbsolute path then .error (.notInSearchPaths fileName) else .ok path
  else if !fs.fileExists path ∧ Path.fileExtension path = [] ∧ fs.fileExists (path ++ xcconfigSuffix) then
    .ok (path ++ xcconfigSuffix)
  else .ok path

/-! ## The delegate -/

variable (chain : List Text)

variable (parserPath : Text)

/-- `chain` is the files being parsed; its last one is that of the parser, at `parserPath`. -/
def handleDiagnostic (diagnostic : LoadDiagnostic) (shared : Shared) : Shared :=
  { shared.record (.handleDiagnostic diagnostic) chain shared.ancestorIncludes with
    diagnostics := shared.diagnostics ++ [(parserPath, diagnostic)] }

/-- The files of a cycle: from the one that is included again. -/
def cycleOf (shared : Shared) (pathToInclude : AncestorInclude) : List AncestorInclude :=
  shared.ancestorIncludes.elements.dropWhile (fun element => !(element == pathToInclude)) ++ [pathToInclude]

def foundPreprocessorInclusion (lineNumber : Nat)
    (fileName : Text) (optional : Bool) (shared : Shared) : Outcome × Shared :=
  let missing (message : InclusionMessage) (shared : Shared) :=
    handleDiagnostic chain parserPath (.inclusion .missingIncludedFile .error message lineNumber) shared
  match locate fs developerPath delegate fileName with
  | .error message => (.notFound, if optional then shared else missing message shared)
  | .ok path =>
    let pathToInclude := fs.ancestorInclude path
    if shared.ancestorIncludes.contains pathToInclude then
      (.cyclic path, handleDiagnostic chain parserPath
        (.inclusion .cyclicIncludeFileDirective .warning
          (.wouldCreateCycle pathToInclude parserPath (cycleOf shared pathToInclude)) lineNumber) shared)
    else
      -- the path is recorded whether or not the file exists
      let shared := { shared with nestedConfigurations := shared.nestedConfigurations ++ [path] }
      if !fs.fileExists path then
        (.nonexistent path, if optional then shared else missing (.doesNotExist fileName) shared)
      else
        let shared := { shared with ancestorIncludes := (shared.ancestorIncludes.append pathToInclude).2 }
        match fs.read path with
        | none => (.unreadable path, missing (.unableToRead path) shared)
        | some data => (.found path data, shared)

/-- The inclusion, as it is recorded. -/
def inclusion (lineNumber : Nat) (fileName : Text)
    (optional : Bool) (shared : Shared) : Outcome × Shared :=
  let (outcome, after) :=
    foundPreprocessorInclusion fs developerPath delegate chain parserPath lineNumber fileName optional shared
  (outcome, after.record (.foundPreprocessorInclusion fileName optional outcome) chain shared.ancestorIncludes)

def foundMacroValueAssignment (assignment : Assignment) (shared : Shared) :
    Except Violation Shared :=
  if assignment.isDeclarable then
    .ok { shared.record (.foundMacroValueAssignment assignment) chain shared.ancestorIncludes with
      table := shared.table ++ [assignment] }
  else .error .precondition

/-- Remove the file whose parse has come to its end, the last one of `chain`. -/
def endPreprocessorInclusion (shared : Shared) : Except Violation Shared :=
  match shared.ancestorIncludes.removeLast with
  | some (_, ancestorIncludes) =>
    .ok { shared.record .endPreprocessorInclusion chain shared.ancestorIncludes with ancestorIncludes := ancestorIncludes }
  | none => .error .precondition

/-! ## The parser with its delegate -/

/-- A call of the parser for `path`. What it does with an answered inclusion is to run the subparser and to end
the inclusion. -/
def handleCall (parseSubparser : List Text → Delegate → Text → Text → Shared → Except Violation Shared)
    (delegate : Delegate) (chain : List Text) (path : Text) (lineNumber : Nat) (call : DelegateCall) (shared : Shared) :
    Except Violation Shared :=
  match call with
  | .handleDiagnostic diagnostic => .ok (handleDiagnostic chain path (.parsing diagnostic) shared)
  | .foundMacroValueAssignment macroName conditions value path startLine endLine startColumn endColumn =>
    foundMacroValueAssignment chain
      ⟨macroName, conditions, value, path, startLine, endLine, startColumn, endColumn⟩ shared
  | .foundPreprocessorInclusion fileName optional =>
    match inclusion fs developerPath delegate chain path lineNumber fileName optional shared with
    | (.found subpath data, shared) => do
      let shared ← parseSubparser (chain ++ [subpath]) (delegate.nested subpath) subpath data shared
      endPreprocessorInclusion (chain ++ [subpath]) shared
    | (_, shared) => .ok shared
  -- these two are made above
  | .parseSubparser => .ok shared
  | .endPreprocessorInclusion => .ok shared

variable (endsInBackslash : Text → Bool) (trimmed : Text → Text)

/-- The loop of `parse` over the lines. What a line asks for does not depend on the answers of the delegate. -/
def lineLoop (parseSubparser : List Text → Delegate → Text → Text → Shared → Except Violation Shared)
    (delegate : Delegate) (chain : List Text) (path : Text) : Nat → State → Shared → Except Violation Shared
  | 0, _, _ => .error .outOfFuel
  | fuel + 1, s, shared =>
    if s.rest = [] then .ok shared
    else do
      let (calls, s') ← parseLine (fun _ => false) endsInBackslash trimmed path s
      assert (isAtEndOfLine s'.rest)
      let shared ← calls.foldlM (fun shared call =>
        handleCall fs developerPath parseSubparser delegate chain path s.currLine call shared) shared
      lineLoop parseSubparser delegate chain path fuel (scanEOL s') shared

/-- `parse`, of a parser for the last file of `chain`; the first argument bounds how deep inclusions are nested. -/
def parseFile : Nat → List Text → Delegate → Text → Text → Shared → Except Violation Shared
  | 0, _, _, _, _, _ => .error .outOfFuel
  | fuel + 1, chain, delegate, path, bytes, shared =>
    lineLoop fs developerPath endsInBackslash trimmed (parseFile fuel) delegate chain path (bytes.length + 1)
      ⟨bytes, 1, 0⟩ shared

/-- Information on a configuration file, with the calls made to load it. -/
structure MacroConfigInfo where
  table : List Assignment
  diagnostics : List (Text × LoadDiagnostic)
  dependencyPaths : List Text
  isFileReadFailure : Bool
  callbacks : List Callback

/-- Load settings from the data of a file. -/
def loadSettingsFromData (fuel : Nat) (data path : Text) (searchPaths : List Text) : Except Violation MacroConfigInfo := do
  let shared ← parseFile fs developerPath endsInBackslash trimmed fuel [path] ⟨some (Path.dirname path), searchPaths⟩
    path data {
      table := []
      diagnostics := []
      nestedConfigurations := [path]
      ancestorIncludes := (OrderedSet.empty.append (fs.ancestorInclude path)).2
      callbacks := [] }
  .ok {
    table := shared.table
    diagnostics := shared.diagnostics
    dependencyPaths := shared.nestedConfigurations
    isFileReadFailure := false
    callbacks := shared.callbacks }

/-- Load a configuration file from a path. -/
def loadSettingsFromConfig (fuel : Nat) (path : Text) (searchPaths : List Text) : Except Violation MacroConfigInfo :=
  match fs.read path with
  | none => .ok {
      table := []
      diagnostics := []
      dependencyPaths := [path]
      isFileReadFailure := true
      callbacks := [] }
  | some data => loadSettingsFromData fs developerPath endsInBackslash trimmed fuel data path searchPaths

end Loader

end Builra.Macro.ConfigFile
