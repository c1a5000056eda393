import Builra.Basic.BinaryCoding

namespace Builra

/-!
# `BuildSystem.BuildValue` — the values of the build system and their coding

`BuildValue` with its construction functions, `toData` and `fromData`. The engine only compares the bytes, so
what matters is that they can be read back (`fromData_toData`) and tell every two values apart
(`buildValue_coding`).
-/

open Codec

namespace BuildValue

/-- `BuildValue::Kind`. -/
inductive Kind where
  | invalid
  | virtualInput
  | existingInput
  | missingInput
  | directoryContents
  | directoryTreeSignature
  | directoryTreeStructureSignature
  | staleFileRemoval
  | missingOutput
  | failedInput
  | successfulCommand
  | failedCommand
  | propagatedFailureCommand
  | cancelledCommand
  | skippedCommand
  | target
  | filteredDirectoryContents
  | successfulCommandWithOutputSignature
deriving DecidableEq, Repr

namespace Kind

/-- `uint8_t(value)`. -/
def code : Kind → UInt8
  | invalid => 0
  | virtualInput => 1
  | existingInput => 2
  | missingInput => 3
  | directoryContents => 4
  | directoryTreeSignature => 5
  | directoryTreeStructureSignature => 6
  | staleFileRemoval => 7
  | missingOutput => 8
  | failedInput => 9
  | successfulCommand => 10
  | failedCommand => 11
  | propagatedFailureCommand => 12
  | cancelledCommand => 13
  | skippedCommand => 14
  | target => 15
  | filteredDirectoryContents => 16
  | successfulCommandWithOutputSignature => 17

/-- `Kind(tmp)`; none for a byte that stands for no kind. -/
def ofCode (tmp : UInt8) : Option Kind :=
  [invalid, virtualInput, existingInput, missingInput, directoryContents, directoryTreeSignature,
    directoryTreeStructureSignature, staleFileRemoval, missingOutput, failedInput, successfulCommand,
    failedCommand, propagatedFailureCommand, cancelledCommand, skippedCommand, target,
    filteredDirectoryContents, successfulCommandWithOutputSignature][tmp.toNat]?

variable (kind : Kind)

theorem ofCode_code : ofCode kind.code = some kind := by
  cases kind <;> rfl

def isSuccessfulCommand : Bool :=
  kind = successfulCommand || kind = successfulCommandWithOutputSignature

def hasSignature : Bool :=
  kind = directoryTreeSignature || kind = directoryTreeStructureSignature ||
    kind = successfulCommandWithOutputSignature

def hasStringList : Bool :=
  kind = directoryContents || kind = filteredDirectoryContents || kind = staleFileRemoval

def hasOutputInfo : Bool :=
  kind = existingInput || kind.isSuccessfulCommand || kind = directoryContents

end Kind

instance : Coding Kind where
  encode value := encode value.code
  decode := do
    let tmp : UInt8 ← decode
    match Kind.ofCode tmp with
    | none => failure
    | some kind => return kind

instance : LawfulCoding Kind where
  decode_encode kind rest := by
    refine (run_bind_of (run_decode kind.code rest)).trans ?_
    rw [Kind.ofCode_code]
    rfl

/-! ## Output infos -/

/-- `numOutputInfos` with the union `valueData`: a single info is stored in place, several on the heap. -/
inductive OutputInfos where
  | none
  | asOutputInfo (info : FileInfo)
  | asOutputInfos (infos : List FileInfo) (several : 1 < infos.length) (bounded : infos.length < 2 ^ 32)

namespace OutputInfos

/-- What `getNthOutputInfo` enumerates. -/
def toList : OutputInfos → List FileInfo
  | none => []
  | asOutputInfo info => [info]
  | asOutputInfos infos _ _ => infos

/-- Storage for a given number of infos. -/
def ofList : (infos : List FileInfo) → infos.length < 2 ^ 32 → OutputInfos
  | [], _ => none
  | [info], _ => asOutputInfo info
  | first :: second :: rest, h => asOutputInfos (first :: second :: rest) (by simp) h

variable (outputInfos : OutputInfos)

def numOutputInfos : UInt32 := UInt32.ofNat outputInfos.toList.length

variable (infos : List FileInfo)

theorem toList_ofList (h : infos.length < 2 ^ 32) :
    (ofList infos h).toList = infos := by
  match infos, h with
  | [], _ => rfl
  | [_], _ => rfl
  | _ :: _ :: _, _ => rfl

theorem length_toList_lt : outputInfos.toList.length < 2 ^ 32 := by
  cases outputInfos with
  | none => decide
  | asOutputInfo info => simp [toList]
  | asOutputInfos infos several bounded => exact bounded

theorem ofList_toList :
    ofList outputInfos.toList outputInfos.length_toList_lt = outputInfos := by
  match outputInfos with
  | none | asOutputInfo info | asOutputInfos (first :: second :: rest) several bounded => rfl

theorem toNat_numOutputInfos :
    outputInfos.numOutputInfos.toNat = outputInfos.toList.length :=
  UInt32.toNat_ofNat_of_lt' outputInfos.length_toList_lt

/-- The number of infos in an array, as the `uint32_t` the constructor stores. -/
def stored : List FileInfo := infos.take (infos.length % 2 ^ 32)

theorem length_stored_lt : (stored infos).length < 2 ^ 32 := by
  have h : (stored infos).length ≤ infos.length % 2 ^ 32 := List.length_take_le _ _
  exact lt_of_le_of_lt h (Nat.mod_lt _ (by decide))

end OutputInfos

end BuildValue

open BuildValue

/-- `BuildValue`. -/
structure BuildValue where
  kind : Kind := .invalid
  signature : CommandSignature := 0
  outputInfos : OutputInfos := .none
  stringValues : StringList := {}

namespace BuildValue

/-! ## Construction functions -/

/-- The constructor with an array of output infos; the array must not be empty. -/
def ofOutputInfos (kind : Kind) (outputInfos : List FileInfo) (signature : CommandSignature := 0) :
    BuildValue where
  kind := kind
  signature := signature
  outputInfos := .ofList (OutputInfos.stored outputInfos) (OutputInfos.length_stored_lt outputInfos)

def makeInvalid : BuildValue := { kind := .invalid }

def makeVirtualInput : BuildValue := { kind := .virtualInput }

def makeExistingInput (outputInfo : FileInfo) : BuildValue := ofOutputInfos .existingInput [outputInfo]

def makeMissingInput : BuildValue := { kind := .missingInput }

def makeDirectoryContents (directoryInfo : FileInfo) (values : StringList) : BuildValue :=
  { ofOutputInfos .directoryContents [directoryInfo] with stringValues := values }

variable (signature : CommandSignature)

def makeDirectoryTreeSignature : BuildValue :=
  { kind := .directoryTreeSignature, signature := signature }

def makeDirectoryTreeStructureSignature : BuildValue :=
  { kind := .directoryTreeStructureSignature, signature := signature }

def makeMissingOutput : BuildValue := { kind := .missingOutput }

def makeFailedInput : BuildValue := { kind := .failedInput }

def makeSuccessfulCommand (outputInfos : List FileInfo) : BuildValue :=
  ofOutputInfos .successfulCommand outputInfos

def makeFailedCommand : BuildValue := { kind := .failedCommand }

def makePropagatedFailureCommand : BuildValue := { kind := .propagatedFailureCommand }

def makeCancelledCommand : BuildValue := { kind := .cancelledCommand }

def makeSkippedCommand : BuildValue := { kind := .skippedCommand }

def makeTarget : BuildValue := { kind := .target }

def makeStaleFileRemoval (values : StringList) : BuildValue :=
  { kind := .staleFileRemoval, stringValues := values }

def makeFilteredDirectoryContents (values : StringList) : BuildValue :=
  { kind := .filteredDirectoryContents, stringValues := values }

def makeSuccessfulCommandWithOutputSignature (outputInfos : List FileInfo)
    (signature : CommandSignature) : BuildValue :=
  ofOutputInfos .successfulCommandWithOutputSignature outputInfos signature

/-! ## Coding -/

/-- `toData`. -/
def toData (v : BuildValue) : ValueType :=
  encode v.kind ++
    ((if v.kind.hasSignature then encode v.signature else []) ++
      ((if v.kind.hasOutputInfo then
          encode v.outputInfos.numOutputInfos ++ v.outputInfos.toList.flatMap encode
        else []) ++
        (if v.kind.hasStringList then encode v.stringValues else [])))

/-- The output infos of a value: their number and then each of them. -/
def readOutputInfos : Reader OutputInfos := do
  let numOutputInfos : UInt32 ← decode
  let infos ← repeated numOutputInfos.toNat
  if h : infos.length < 2 ^ 32 then return .ofList infos h else failure

/-- The decoding constructor of `BuildValue`, without the test for empty data and `finish`. -/
def read : Reader BuildValue := do
  let kind : Kind ← decode
  let signature : CommandSignature ← presentIf kind.hasSignature decode 0
  let outputInfos ← presentIf kind.hasOutputInfo readOutputInfos .none
  let stringValues : StringList ← presentIf kind.hasStringList decode {}
  return { kind := kind, signature := signature, outputInfos := outputInfos, stringValues := stringValues }

/-- `fromData`; none if the data is malformed or is not used up. -/
def fromData (value : ValueType) : Option BuildValue :=
  if value = [] then some makeInvalid
  else
    match read.run value with
    | some (v, []) => some v
    | _ => none

/-- Only the fields that belong to the kind are set. -/
structure Wf (v : BuildValue) : Prop where
  signature : v.kind.hasSignature = false → v.signature = 0
  outputInfos : v.kind.hasOutputInfo = false → v.outputInfos = .none
  stringValues : v.kind.hasStringList = false → v.stringValues = {}

theorem run_readOutputInfos (outputInfos : OutputInfos) (rest : List UInt8) :
    readOutputInfos.run ((encode outputInfos.numOutputInfos ++ outputInfos.toList.flatMap encode) ++ rest)
      = some (outputInfos, rest) := by
  have hinfos := run_repeated outputInfos.toList rest
  rw [← outputInfos.toNat_numOutputInfos] at hinfos
  rw [List.append_assoc]
  refine (run_bind_of (run_decode outputInfos.numOutputInfos _)).trans ?_
  refine (run_bind_of hinfos).trans ?_
  rw [dif_pos outputInfos.length_toList_lt, outputInfos.ofList_toList]
  rfl

variable {v : BuildValue}

/-- **What was written is read back**, to the last byte. -/
theorem fromData_toData (h : v.Wf) : fromData v.toData = some v := by
  have hne : v.toData ≠ [] := by
    unfold toData
    simp [encode]
  have hread : read.run v.toData = some (v, []) := by
    unfold toData
    refine (run_bind_of (run_decode v.kind _)).trans ?_
    refine (run_bind_of (run_presentIf (run_decode v.signature _) h.signature)).trans ?_
    refine (run_bind_of (run_presentIf (run_readOutputInfos v.outputInfos _) h.outputInfos)).trans ?_
    have hlast := run_presentIf (run_decode v.stringValues []) h.stringValues
    rw [List.append_nil] at hlast
    exact (run_bind_of hlast).trans rfl
  rw [fromData, if_neg hne, hread]

/-! ## The values that can be constructed -/

/-- What a value says, in terms of its accessors. -/
structure Content where
  kind : Kind
  signature : CommandSignature := 0
  outputInfos : List FileInfo := []
  strings : List (List UInt8) := []

/-- The content of a value; none if its strings are not terminated. -/
def content (v : BuildValue) : Option Content := do
  let strings ← v.stringValues.getValues
  return { kind := v.kind, signature := v.signature, outputInfos := v.outputInfos.toList, strings := strings }

/-- **The values the construction functions return**, with their content. The conditions are the assertions
    of the source; a `StringList` holds less than `2 ^ 64` bytes. -/
inductive Made : BuildValue → Content → Prop where
  | makeInvalid : Made makeInvalid { kind := .invalid }
  | makeVirtualInput : Made makeVirtualInput { kind := .virtualInput }
  | makeExistingInput (outputInfo : FileInfo) : outputInfo.isMissing = false →
      Made (makeExistingInput outputInfo) { kind := .existingInput, outputInfos := [outputInfo] }
  | makeMissingInput : Made makeMissingInput { kind := .missingInput }
  | makeDirectoryContents (directoryInfo : FileInfo) (values : List (List UInt8))
      (h : (StringList.pack values).length < 2 ^ 64) : (∀ value ∈ values, (0 : UInt8) ∉ value) →
      Made (makeDirectoryContents directoryInfo (.ofValues values h))
        { kind := .directoryContents, outputInfos := [directoryInfo], strings := values }
  | makeDirectoryTreeSignature (signature : CommandSignature) :
      Made (makeDirectoryTreeSignature signature) { kind := .directoryTreeSignature, signature := signature }
  | makeDirectoryTreeStructureSignature (signature : CommandSignature) :
      Made (makeDirectoryTreeStructureSignature signature)
        { kind := .directoryTreeStructureSignature, signature := signature }
  | makeMissingOutput : Made makeMissingOutput { kind := .missingOutput }
  | makeFailedInput : Made makeFailedInput { kind := .failedInput }
  | makeSuccessfulCommand (outputInfos : List FileInfo) : OutputInfos.stored outputInfos ≠ [] →
      Made (makeSuccessfulCommand outputInfos)
        { kind := .successfulCommand, outputInfos := OutputInfos.stored outputInfos }
  | makeFailedCommand : Made makeFailedCommand { kind := .failedCommand }
  | makePropagatedFailureCommand : Made makePropagatedFailureCommand { kind := .propagatedFailureCommand }
  | makeCancelledCommand : Made makeCancelledCommand { kind := .cancelledCommand }
  | makeSkippedCommand : Made makeSkippedCommand { kind := .skippedCommand }
  | makeTarget : Made makeTarget { kind := .target }
  | makeStaleFileRemoval (values : List (List UInt8)) (h : (StringList.pack values).length < 2 ^ 64) :
      (∀ value ∈ values, (0 : UInt8) ∉ value) →
      Made (makeStaleFileRemoval (.ofValues values h)) { kind := .staleFileRemoval, strings := values }
  | makeFilteredDirectoryContents (values : List (List UInt8))
      (h : (StringList.pack values).length < 2 ^ 64) : (∀ value ∈ values, (0 : UInt8) ∉ value) →
      Made (makeFilteredDirectoryContents (.ofValues values h))
        { kind := .filteredDirectoryContents, strings := values }
  | makeSuccessfulCommandWithOutputSignature (outputInfos : List FileInfo)
      (signature : CommandSignature) : OutputInfos.stored outputInfos ≠ [] →
      Made (makeSuccessfulCommandWithOutputSignature outputInfos signature)
        { kind := .successfulCommandWithOutputSignature, signature := signature,
          outputInfos := OutputInfos.stored outputInfos }

/-- A constructed value sets only what belongs to its kind. -/
theorem Made.wf {x : Content} (h : Made v x) : v.Wf := by
  cases h <;> refine ⟨fun hk => ?_, fun hk => ?_, fun hk => ?_⟩ <;>
    first | rfl | exact absurd (show true = false from hk) (by simp)

theorem content_eq {infos : List FileInfo} {strings : List (List UInt8)}
    (hstrings : v.stringValues.getValues = some strings) (hinfos : v.outputInfos.toList = infos) :
    v.content = some { kind := v.kind, signature := v.signature, outputInfos := infos, strings := strings } := by
  rw [BuildValue.content, hstrings, hinfos]
  rfl

/-- The accessors of a constructed value return what it was constructed from. -/
theorem Made.content {x : Content} (h : Made v x) : v.content = some x := by
  cases h with
  | makeDirectoryContents directoryInfo values h hv | makeStaleFileRemoval values h hv
  | makeFilteredDirectoryContents values h hv =>
    exact content_eq (StringList.getValues_ofValues values h hv) rfl
  | makeSuccessfulCommand outputInfos _ => exact content_eq rfl (OutputInfos.toList_ofList _ _)
  | makeSuccessfulCommandWithOutputSignature outputInfos signature _ =>
    exact content_eq rfl (OutputInfos.toList_ofList _ _)
  | _ => rfl

/-- **Coding of build values.** A constructed value is read back from its data with all it was constructed
    from, and values with the same data have the same content. -/
theorem buildValue_coding {v w : BuildValue} {x y : Content} (hv : Made v x) (hw : Made w y) :
    fromData v.toData = some v ∧ v.content = some x ∧ (v.toData = w.toData → x = y) := by
  refine ⟨fromData_toData hv.wf, hv.content, fun heq => ?_⟩
  have hvw : v = w := by
    have h := fromData_toData hv.wf
    rw [heq, fromData_toData hw.wf] at h
    exact (Option.some.inj h).symm
  have hx := hv.content
  rw [hvw, hw.content] at hx
  exact (Option.some.inj hx).symm

theorem buildValue_coding_directory :
    fromData (makeDirectoryContents { inode := 1 } (.ofValues [[97], []] (by decide))).toData =
        some (makeDirectoryContents { inode := 1 } (.ofValues [[97], []] (by decide))) ∧
      (makeDirectoryContents { inode := 1 } (.ofValues [[97], []] (by decide))).toData ≠
        (makeStaleFileRemoval (.ofValues [[97], []] (by decide))).toData := by
  have hv := Made.makeDirectoryContents { inode := 1 } [[97], []] (by decide) (by decide)
  have hw := Made.makeStaleFileRemoval [[97], []] (by decide) (by decide)
  obtain ⟨hread, -, hinj⟩ := buildValue_coding hv hw
  exact ⟨hread, fun heq => absurd (congrArg Content.kind (hinj heq)) (by decide)⟩

end BuildValue

end Builra
