import Builra.Basic.BinaryCoding
import Builra.Core.Engine

namespace Builra

/-!
# `Ninja.BuildValue` — the values of a Ninja build

A value is stored as the bytes of the object itself. With several outputs these contain the address of the array of
output infos, which follows them.
-/

open Codec List Nat

namespace Ninja

inductive BuildValueKind where
  | existingInput
  | missingInput
  | successfulCommand
  | failedCommand
  | skippedCommand
deriving DecidableEq, Repr

namespace BuildValueKind

def toUInt32 : BuildValueKind → UInt32
  | existingInput => 0
  | missingInput => 1
  | successfulCommand => 2
  | failedCommand => 3
  | skippedCommand => 4

def ofUInt32? (n : UInt32) : Option BuildValueKind :=
  if n = 0 then some existingInput
  else if n = 1 then some missingInput
  else if n = 2 then some successfulCommand
  else if n = 3 then some failedCommand
  else if n = 4 then some skippedCommand
  else none

theorem ofUInt32?_toUInt32 (kind : BuildValueKind) : ofUInt32? kind.toUInt32 = some kind := by
  cases kind <;> rfl

end BuildValueKind

/-- The object in memory. -/
@[ext]
structure BuildValue where
  kind : BuildValueKind
  numOutputInfos : UInt32
  /-- The union as its `asOutputInfo`; the field `device` is also the pointer `asOutputInfos`. -/
  valueData : FileInfo
  commandHash : CommandSignature
  /-- The array that the pointer refers to. -/
  outputInfos : List FileInfo
  array : outputInfos.length = if 1 < numOutputInfos then numOutputInfos.toNat else 0

namespace BuildValue

/-! ## Constructors -/

/-- `BuildValue(kind)` -/
def ofKind (kind : BuildValueKind) : BuildValue where
  kind := kind
  numOutputInfos := 0
  valueData := {}
  commandHash := 0
  outputInfos := []
  array := rfl

/-- `BuildValue(kind, outputInfo, commandHash)` -/
def ofInfo (kind : BuildValueKind) (outputInfo : FileInfo) (commandHash : CommandSignature) : BuildValue where
  kind := kind
  numOutputInfos := 1
  valueData := outputInfo
  commandHash := commandHash
  outputInfos := []
  array := rfl

theorem one_lt_ofNat {n : Nat} (h : 1 < n) (hlt : n < 2 ^ 32) : 1 < UInt32.ofNat n := by
  rw [UInt32.lt_iff_toNat_lt, UInt32.toNat_ofNat_of_lt' hlt]
  exact h

/-- `BuildValue(kind, outputInfos, numOutputInfos, commandHash)`, the array at `address`. -/
def ofInfos (address : UInt64) (kind : BuildValueKind) (outputInfos : List FileInfo) (commandHash : CommandSignature)
    (several : 1 < outputInfos.length) (bounded : outputInfos.length < 2 ^ 32) : BuildValue where
  kind := kind
  numOutputInfos := UInt32.ofNat outputInfos.length
  valueData := { device := address }
  commandHash := commandHash
  outputInfos := outputInfos
  array := by rw [if_pos (one_lt_ofNat several bounded), UInt32.toNat_ofNat_of_lt' bounded]

def makeExistingInput (outputInfo : FileInfo) : BuildValue := ofInfo .existingInput outputInfo 0

def makeMissingInput : BuildValue := ofKind .missingInput

/-- `makeSuccessfulCommand`, with one output or several. -/
def makeSuccessfulCommand (outputInfo : FileInfo) (commandHash : CommandSignature) : BuildValue :=
  ofInfo .successfulCommand outputInfo commandHash

def makeSuccessfulCommands (address : UInt64) (outputInfos : List FileInfo) (commandHash : CommandSignature)
    (several : 1 < outputInfos.length) (bounded : outputInfos.length < 2 ^ 32) : BuildValue :=
  ofInfos address .successfulCommand outputInfos commandHash several bounded

def makeFailedCommand : BuildValue := ofKind .failedCommand

def makeSkippedCommand : BuildValue := ofKind .skippedCommand

/-! ## Accessors -/

variable (v : BuildValue)

def isExistingInput : Bool := v.kind = .existingInput

def isMissingInput : Bool := v.kind = .missingInput

def isSuccessfulCommand : Bool := v.kind = .successfulCommand

def hasMultipleOutputs : Bool := 1 < v.numOutputInfos

def getOutputInfo : FileInfo := v.valueData

/-- What `getNthOutputInfo` enumerates, for `n` up to `getNumOutputs`. -/
def getOutputInfos : List FileInfo :=
  if v.hasMultipleOutputs then v.outputInfos
  else if v.numOutputInfos = 1 then [v.valueData]
  else []

/-! ## Storing -/

/-- The bytes of the object. -/
def image : ValueType :=
  encode v.kind.toUInt32 ++ (encode v.numOutputInfos ++ (encode v.valueData ++ encode v.commandHash))

def toValue : ValueType :=
  if 1 < v.numOutputInfos then v.image ++ v.outputInfos.flatMap encode else v.image

variable (address : UInt64)

/-- The object and, when there are several, the output infos, the new array of which is at `address`. -/
def readValue : Reader BuildValue := do
  let kindCode : UInt32 ← decode
  let numOutputInfos : UInt32 ← decode
  let valueData : FileInfo ← decode
  let commandHash : UInt64 ← decode
  match BuildValueKind.ofUInt32? kindCode with
  | none => failure
  | some kind =>
    if several : 1 < numOutputInfos then do
      let outputInfos ← repeated numOutputInfos.toNat
      if h : outputInfos.length = numOutputInfos.toNat then
        return ⟨kind, numOutputInfos, { valueData with device := address }, commandHash, outputInfos,
          by rw [if_pos several, h]⟩
      else failure
    else return ⟨kind, numOutputInfos, valueData, commandHash, [], by rw [if_neg several]; rfl⟩

/-- `fromValue`; none when the size is not that of a stored value. -/
def fromValue (value : ValueType) : Option BuildValue :=
  match (readValue address).run value with
  | some (v, []) => some v
  | _ => none

/-! ## Content -/

/-- What a value says. -/
structure Content where
  kind : BuildValueKind
  commandHash : CommandSignature
  outputInfos : List FileInfo
  bounded : outputInfos.length < 2 ^ 32

theorem length_getOutputInfos (v : BuildValue) : v.getOutputInfos.length < 2 ^ 32 := by
  unfold getOutputInfos
  split
  · rw [v.array]
    split
    · exact v.numOutputInfos.toNat_lt
    · decide
  · split
    · rw [length_singleton]
      decide
    · rw [length_nil]
      decide

def content : Content := ⟨v.kind, v.commandHash, v.getOutputInfos, length_getOutputInfos v⟩

/-- The value that a constructor makes of a content; an array of output infos is at `address`. -/
def ofContent (c : Content) : BuildValue :=
  match h : c.outputInfos with
  | [] => { ofKind c.kind with commandHash := c.commandHash }
  | [outputInfo] => ofInfo c.kind outputInfo c.commandHash
  | first :: second :: rest =>
    ofInfos address c.kind (first :: second :: rest) c.commandHash (succ_lt_succ (succ_pos _))
      (by rw [← h]; exact c.bounded)

/-- The value with its array at another address. -/
def moved : BuildValue :=
  if 1 < v.numOutputInfos then { v with valueData := { v.valueData with device := address } } else v

variable {v}

theorem outputInfos_eq_nil (h : ¬ 1 < v.numOutputInfos) : v.outputInfos = [] := by
  have harray := v.array
  rw [if_neg h] at harray
  exact length_eq_zero_iff.mp harray

theorem fromValue_toValue (v : BuildValue) (address : UInt64) : fromValue address v.toValue = some (v.moved address) := by
  have hread : (readValue address).run v.toValue = some (v.moved address, []) := by
    by_cases h : 1 < v.numOutputInfos
    · have harray : v.outputInfos.length = v.numOutputInfos.toNat := by rw [v.array, if_pos h]
      have hinfos := run_repeated v.outputInfos []
      rw [harray, append_nil] at hinfos
      rw [toValue, if_pos h, image, append_assoc, append_assoc, append_assoc, readValue,
        run_bind_of (run_decode v.kind.toUInt32 _), run_bind_of (run_decode v.numOutputInfos _),
        run_bind_of (run_decode v.valueData _), run_bind_of (run_decode v.commandHash _),
        BuildValueKind.ofUInt32?_toUInt32]
      simp only [dif_pos h]
      rw [run_bind_of hinfos, dif_pos harray, moved, if_pos h]
      rfl
    · rw [toValue, if_neg h, image, readValue, run_bind_of (run_decode v.kind.toUInt32 _),
        run_bind_of (run_decode v.numOutputInfos _), run_bind_of (run_decode v.valueData _),
        run_bind_of (run_decode_nil v.commandHash), BuildValueKind.ofUInt32?_toUInt32]
      simp only [dif_neg h]
      rw [moved, if_neg h]
      refine congrArg (fun u => some (u, [])) (BuildValue.ext rfl rfl rfl rfl ?_)
      exact (outputInfos_eq_nil h).symm
  rw [fromValue, hread]

theorem content_moved (v : BuildValue) (address : UInt64) : (v.moved address).content = v.content := by
  unfold moved
  by_cases h : 1 < v.numOutputInfos
  · rw [if_pos h]
    have hinfos : getOutputInfos { v with valueData := { v.valueData with device := address } } = v.getOutputInfos := by
      unfold getOutputInfos hasMultipleOutputs
      rw [if_pos (decide_eq_true h), if_pos (decide_eq_true h)]
    simp only [content, hinfos]
  · rw [if_neg h]

/-- Values that say different things are stored differently. -/
theorem content_eq_of_toValue_eq {w : BuildValue} (h : v.toValue = w.toValue) : v.content = w.content := by
  have hload := fromValue_toValue v 0
  rw [h, fromValue_toValue, Option.some_inj] at hload
  rw [← content_moved v 0, ← hload, content_moved]

theorem content_ofContent (address : UInt64) (c : Content) : (ofContent address c).content = c := by
  obtain ⟨kind, commandHash, outputInfos, bounded⟩ := c
  match outputInfos, bounded with
  | [], _ => rfl
  | [_], _ => rfl
  | first :: second :: rest, bounded =>
    have hmultiple : 1 < UInt32.ofNat (first :: second :: rest).length :=
      one_lt_ofNat (succ_lt_succ (succ_pos _)) bounded
    have hinfos : (ofContent address ⟨kind, commandHash, first :: second :: rest, bounded⟩).getOutputInfos
        = first :: second :: rest := if_pos (decide_eq_true hmultiple)
    simp only [content, hinfos]
    rfl

/-- A value with several output infos is stored with the address of their array. -/
theorem toValue_ofContent_eq_iff (c : Content) (address address' : UInt64) :
    (ofContent address c).toValue = (ofContent address' c).toValue ↔ c.outputInfos.length ≤ 1 ∨ address = address' := by
  obtain ⟨kind, commandHash, outputInfos, bounded⟩ := c
  match outputInfos, bounded with
  | [], _ => exact iff_of_true rfl (.inl (zero_le _))
  | [_], _ => exact iff_of_true rfl (.inl (Nat.le_refl _))
  | first :: second :: rest, bounded =>
    have hmultiple : 1 < UInt32.ofNat (first :: second :: rest).length :=
      one_lt_ofNat (succ_lt_succ (succ_pos _)) bounded
    have hlength : ¬ (first :: second :: rest).length ≤ 1 := Nat.not_le.mpr (succ_lt_succ (succ_pos _))
    rw [or_iff_right hlength]
    constructor
    · intro h
      have hvalue : ∀ a, (ofContent a ⟨kind, commandHash, first :: second :: rest, bounded⟩).toValue
          = encode kind.toUInt32 ++ (encode (UInt32.ofNat (first :: second :: rest).length)
            ++ (encode ({ device := a } : FileInfo) ++ (encode commandHash
              ++ (first :: second :: rest).flatMap encode))) := by
        intro a
        rw [toValue]
        refine (if_pos hmultiple).trans ?_
        rw [image, append_assoc, append_assoc, append_assoc]
        rfl
      rw [hvalue, hvalue, encode_append_inj, encode_append_inj, encode_append_inj] at h
      exact congrArg FileInfo.device h.2.2.1
    · rintro rfl
      rfl

/-! ## Comparing values -/

/-- Storing `w` where `v` was stored is a change just if they say different things. -/
def ComparesByContent (v w : BuildValue) : Prop :=
  (v.content = w.content → v.toValue = w.toValue) ∧
    ∀ (result : Result) (signature : CommandSignature) (currentEpoch : Epoch),
      result.value = v.toValue → result.computedAt ≠ currentEpoch →
        ((Engine.storeValue signature currentEpoch w.toValue false result).computedAt = currentEpoch ↔ v.content ≠ w.content)

theorem computedAt_storeValue {result : Result} {currentEpoch : Epoch} {value : ValueType} (signature : CommandSignature)
    (h : result.computedAt ≠ currentEpoch) :
    (Engine.storeValue signature currentEpoch value false result).computedAt = currentEpoch ↔ result.value ≠ value := by
  unfold Engine.storeValue
  by_cases hvalue : value = result.value
  · simp [hvalue, h]
  · simp [hvalue, eq_comm]

theorem comparesByContent_iff_toValue {w : BuildValue} :
    ComparesByContent v w ↔ (v.content = w.content → v.toValue = w.toValue) := by
  constructor
  · intro h
    exact h.1
  · intro h
    refine ⟨h, fun result signature currentEpoch hresult hcomputed => ?_⟩
    rw [computedAt_storeValue signature hcomputed, hresult]
    exact not_congr ⟨content_eq_of_toValue_eq, h⟩

/-- Stored values are loaded with what they say. They compare by it unless they have several output infos, the same
    ones, in arrays at different addresses. -/
theorem stored_by_content_iff (c c' : Content) (address address' : UInt64) :
    (∀ newAddress, ∃ v, fromValue newAddress (ofContent address c).toValue = some v ∧ v.content = c) ∧
      (ComparesByContent (ofContent address c) (ofContent address' c') ↔
        (c = c' → c.outputInfos.length ≤ 1 ∨ address = address')) := by
  constructor
  · intro newAddress
    refine ⟨_, fromValue_toValue _ newAddress, ?_⟩
    rw [content_moved, content_ofContent]
  · rw [comparesByContent_iff_toValue, content_ofContent, content_ofContent]
    constructor
    · rintro h rfl
      exact (toValue_ofContent_eq_iff c address address').mp (h rfl)
    · rintro h rfl
      exact (toValue_ofContent_eq_iff c address address').mpr (h rfl)

/-- A command with two outputs, neither of which exists. -/
def twoMissingOutputs : Content := ⟨.successfulCommand, 0, [{}, {}], by decide⟩

theorem twoMissingOutputs_changes : ¬ ∀ (c : Content) (address address' : UInt64),
    ComparesByContent (ofContent address c) (ofContent address' c) := by
  intro h
  have hequal := (h twoMissingOutputs 0 1).1 rfl
  rw [toValue_ofContent_eq_iff] at hequal
  revert hequal
  decide

end BuildValue

end Ninja

end Builra
