import Builra.Lib.Fallible
import Builra.Lib.Utf8

namespace Builra

open List Option

open Utf8 (utf8)

/-!
# `Util.DependencyInfo` — dependency info as ld64 writes it

The format is written and read by the build system, and read once more by the parser of its core. Both readers see the
same records (`records`); what each of them accepts is stated on these.
-/

inductive DependencyInfoEncodingError where
  | emptyString
  | embeddedNullInString (string : String)

inductive DependencyInfoDecodingError where
  | unexpectedEOF
  | missingVersion
  | duplicateVersion
  | unknownOpcode (opcode : UInt8)
  | invalidOperand (bytes : Option (List UInt8))

/-- An ld64-style dependency info object. -/
structure DependencyInfo where
  version : String
  inputs : List String := []
  missing : List String := []
  outputs : List String := []

namespace DependencyInfo

inductive Opcode where
  | version
  | input
  | missing
  | output
  deriving DecidableEq

def Opcode.rawValue : Opcode → UInt8
  | .version => 0x00
  | .input => 0x10
  | .missing => 0x11
  | .output => 0x40

def Opcode.ofRawValue (rawValue : UInt8) : Option Opcode :=
  if rawValue = 0x00 then some .version
  else if rawValue = 0x10 then some .input
  else if rawValue = 0x11 then some .missing
  else if rawValue = 0x40 then some .output
  else none

theorem Opcode.ofRawValue_rawValue (opcode : Opcode) : ofRawValue opcode.rawValue = some opcode := by
  cases opcode <;> rfl

/-! ## Writing -/

/-- Validates that a string can be encoded. -/
def validatingEncodability (string : String) : Except DependencyInfoEncodingError String :=
  -- Empty strings are not considered valid, although they are technically encodable
  if string = "" then .error .emptyString
  -- all strings are NULL-terminated and are not length-prefixed
  else if '\x00' ∈ string.toList then .error (.embeddedNullInString string)
  else .ok string

def validatingAll (strings : List String) : Except DependencyInfoEncodingError (List String) := do
  strings.forM fun element => discard (validatingEncodability element)
  return strings

def Opcode.bytes (opcode : Opcode) (values : List String) : List UInt8 :=
  values.flatMap fun value => opcode.rawValue :: (utf8 value ++ [0])

/-- The `DependencyInfo` object in its binary format. -/
def asBytes (info : DependencyInfo) : Except DependencyInfoEncodingError (List UInt8) := do
  let version := Opcode.version.bytes [← validatingEncodability info.version]
  let inputs := Opcode.input.bytes (← validatingAll info.inputs)
  let missing := Opcode.missing.bytes (← validatingAll info.missing)
  let outputs := Opcode.output.bytes (← validatingAll info.outputs)
  return version ++ inputs ++ missing ++ outputs

/-! ## Reading -/

/-- The record that starts with a byte, and the data behind it. -/
def readRecord (first : UInt8) (data : List UInt8) :
    Except DependencyInfoDecodingError (Opcode × String × List UInt8) :=
  match Opcode.ofRawValue first with
  | none => .error (.unknownOpcode first)
  | some opcode =>
    if 0 ∈ data then
      let bytes := data.takeWhile (· ≠ 0)
      match String.fromUTF8? bytes.toByteArray with
      | none => .error (.invalidOperand (some bytes))
      | some operand =>
        if operand = "" then .error (.invalidOperand none)
        else .ok (opcode, operand, data.drop (bytes.length + 1))
    else .error .unexpectedEOF

/-- A record is taken over, unless it is one of the version. -/
def add (info : DependencyInfo) (operand : String) : Opcode → Except DependencyInfoDecodingError DependencyInfo
  | .version => .error .duplicateVersion
  | .input => .ok { info with inputs := info.inputs ++ [operand] }
  | .missing => .ok { info with missing := info.missing ++ [operand] }
  | .output => .ok { info with outputs := info.outputs ++ [operand] }

theorem readRecord_eq_ok {first : UInt8} {data : List UInt8} {opcode : Opcode} {operand : String}
    {rest : List UInt8} : readRecord first data = .ok (opcode, operand, rest) ↔
      Opcode.ofRawValue first = some opcode ∧ 0 ∈ data ∧
        String.fromUTF8? (data.takeWhile (· ≠ 0)).toByteArray = some operand ∧ operand ≠ "" ∧
        rest = data.drop ((data.takeWhile (· ≠ 0)).length + 1) := by
  unfold readRecord
  constructor
  · intro h
    split at h
    · cases h
    · rename_i hopcode
      split_ifs at h with hmem
      dsimp only at h
      split at h
      · cases h
      · rename_i hdecoded
        split_ifs at h with hne
        obtain ⟨rfl, hpair⟩ := Prod.mk.inj (Except.ok.inj h)
        cases hpair
        exact ⟨hopcode, hmem, hdecoded, hne, rfl⟩
  · rintro ⟨hopcode, hmem, hdecoded, hne, rfl⟩
    simp only [hopcode, hdecoded]
    rw [if_pos hmem, if_neg hne]

/-- The records up to the end of the data. -/
def readRecords (info : DependencyInfo) : List UInt8 → Except DependencyInfoDecodingError DependencyInfo
  | [] => .ok info
  | first :: data =>
    match _hread : readRecord first data with
    | .error error => .error error
    | .ok (opcode, operand, rest) =>
      match info.add operand opcode with
      | .error error => .error error
      | .ok info' => readRecords info' rest
termination_by bytes => bytes.length
decreasing_by
  obtain ⟨-, -, -, -, rfl⟩ := readRecord_eq_ok.mp _hread
  simp only [length_drop, length_cons]
  omega

/-- Initializes a `DependencyInfo` object from the binary format. -/
def ofBytes : List UInt8 → Except DependencyInfoDecodingError DependencyInfo
  | [] => .error .unexpectedEOF
  | first :: data => do
    let (opcode, version, bytes) ← readRecord first data
    if opcode ≠ .version then throw .missingVersion
    readRecords { version } bytes

end DependencyInfo

/-! ## The parser of the core -/

namespace DependencyInfoParser

open DependencyInfo (Opcode)

/-- The actions that parsing calls. -/
inductive Action where
  | actOnVersion (operand : List UInt8)
  | actOnInput (operand : List UInt8)
  | actOnMissing (operand : List UInt8)
  | actOnOutput (operand : List UInt8)
  | error (message : String) (position : Nat)

def Action.isError : Action → Bool
  | .error _ _ => true
  | _ => false

/-- The records from a position on. The buffers that are read have a null byte behind their end, which is where the
operand is sought when the last byte is taken for an opcode. -/
def parseRecords (position : Nat) : List UInt8 → List Action
  | [] => []
  | opcode :: data =>
    let operand := data.takeWhile (· ≠ 0)
    if operand = [] then [.error "empty operand" position]
    else
      let action := match Opcode.ofRawValue opcode with
        | some .version =>
          if position ≠ 0 then .error "invalid duplicate version" position else .actOnVersion operand
        | some .input => .actOnInput operand
        | some .missing => .actOnMissing operand
        | some .output => .actOnOutput operand
        | none => .error "unknown opcode in file" position
      action :: parseRecords (position + 1 + operand.length + 1) (data.drop (operand.length + 1))
termination_by data => data.length
decreasing_by
  simp only [length_drop, length_cons]
  omega

def parse (data : List UInt8) : List Action :=
  if data.getLast? ≠ some 0 then [.error "missing null terminator" data.length]
  else if data.head? ≠ some Opcode.version.rawValue then [.error "missing version record" 0]
  else parseRecords 0 data

end DependencyInfoParser

/-! ## Records -/

namespace DependencyInfo

/-- The records of a file: an opcode each, and the bytes up to the next null. -/
def records : List UInt8 → List (UInt8 × List UInt8)
  | [] => []
  | opcode :: data =>
    (opcode, data.takeWhile (· ≠ 0)) :: records (data.drop ((data.takeWhile (· ≠ 0)).length + 1))
termination_by data => data.length
decreasing_by
  simp only [length_drop, length_cons]
  omega

variable (record : UInt8 × List UInt8)

/-- A record that both readers take after the first one. -/
def Follows : Prop :=
  record.2 ≠ [] ∧ ∃ opcode, Opcode.ofRawValue record.1 = some opcode ∧ opcode ≠ .version

def ValidOperand : Prop :=
  ∃ operand, String.fromUTF8? record.2.toByteArray = some operand

/-- All operands are UTF-8. -/
def ValidOperands (bytes : List UInt8) : Prop := ∀ record ∈ records bytes, ValidOperand record

/-- The last byte, if there is one, is null. -/
def Terminated (data : List UInt8) : Prop := ∀ b ∈ data.getLast?, b = 0

/-- A file that both readers take: a version, then other records. -/
def WellFormed (bytes : List UInt8) : Prop :=
  Terminated bytes ∧ ∃ version rest, records bytes = (Opcode.version.rawValue, version) :: rest ∧ version ≠ [] ∧
    ∀ record ∈ rest, Follows record

variable {data : List UInt8} {first : UInt8}

theorem takeWhile_append_drop (h : 0 ∈ data) :
    data = data.takeWhile (· ≠ 0) ++ 0 :: data.drop ((data.takeWhile (· ≠ 0)).length + 1) := by
  induction data with
  | nil => cases h
  | cons b data ih =>
    by_cases hb : b = 0
    · subst hb
      rfl
    · have htail := ih ((mem_cons.mp h).resolve_left (Ne.symm hb))
      have hwhile : (b :: data).takeWhile (· ≠ 0) = b :: data.takeWhile (· ≠ 0) :=
        takeWhile_cons_of_pos (decide_eq_true hb)
      rw [hwhile, length_cons, drop_succ_cons, cons_append, ← htail]

theorem terminated_cons {opcode : UInt8} (h : 0 ∈ data) :
    Terminated (opcode :: data) ↔ Terminated (data.drop ((data.takeWhile (· ≠ 0)).length + 1)) := by
  generalize hrest : data.drop ((data.takeWhile (· ≠ 0)).length + 1) = rest
  have hdata := takeWhile_append_drop h
  rw [hrest] at hdata
  unfold Terminated
  rw [hdata, ← cons_append]
  cases rest with
  | nil =>
    rw [getLast?_concat]
    exact iff_of_true (fun b hb => (some.inj hb).symm) (fun b hb => nomatch hb)
  | cons b rest =>
    rw [getLast?_append_of_ne_nil _ (cons_ne_nil _ _), getLast?_cons_cons]

theorem getLast?_eq_some_zero (first : UInt8) (data : List UInt8) :
    (first :: data).getLast? = some 0 ↔ Terminated (first :: data) := by
  unfold Terminated
  rw [getLast?_eq_some_getLast (cons_ne_nil first data)]
  constructor
  · rintro h b hb
    rw [← some.inj h]
    exact (some.inj hb).symm
  · intro h
    exact congrArg some (h _ rfl)

/-- Where no null follows, the file ends. -/
theorem eq_nil_of_terminated {opcode : UInt8} (h : 0 ∉ data) (hend : Terminated (opcode :: data)) : data = [] := by
  cases data with
  | nil => rfl
  | cons b data =>
    have hlast := getLast_mem (cons_ne_nil b data)
    have hzero := hend ((b :: data).getLast (cons_ne_nil b data))
      (by rw [getLast?_cons_cons, getLast?_eq_some_getLast (cons_ne_nil b data)]; rfl)
    rw [hzero] at hlast
    exact absurd hlast h

/-- A record is read if it has a known opcode and an operand in UTF-8, up to a null. -/
theorem exists_readRecord :
    (∃ record, readRecord first data = .ok record) ↔
      0 ∈ data ∧ data.takeWhile (· ≠ 0) ≠ [] ∧ ValidOperand (first, data.takeWhile (· ≠ 0)) ∧
        ∃ opcode, Opcode.ofRawValue first = some opcode := by
  constructor
  · rintro ⟨⟨opcode, operand, rest⟩, h⟩
    obtain ⟨hopcode, hmem, hdecoded, hne, -⟩ := readRecord_eq_ok.mp h
    refine ⟨hmem, fun hnil => ?_, ⟨operand, hdecoded⟩, opcode, hopcode⟩
    rw [hnil, Utf8.fromUTF8?_nil] at hdecoded
    exact hne (some.inj hdecoded).symm
  · rintro ⟨hmem, hne, ⟨operand, hdecoded⟩, opcode, hopcode⟩
    refine ⟨(opcode, operand, data.drop ((data.takeWhile (· ≠ 0)).length + 1)),
      readRecord_eq_ok.mpr ⟨hopcode, hmem, hdecoded, ?_, rfl⟩⟩
    rintro rfl
    exact hne (Utf8.eq_nil_of_fromUTF8? hdecoded)

theorem exists_add {info : DependencyInfo} {operand : String} {opcode : Opcode} :
    (∃ info', info.add operand opcode = .ok info') ↔ opcode ≠ .version := by
  cases opcode with
  | version =>
    refine iff_of_false ?_ (fun h => h rfl)
    rintro ⟨info', h⟩
    cases h
  | input | missing | output => exact iff_of_true ⟨_, rfl⟩ (fun h => nomatch h)

theorem readRecords_cons {info : DependencyInfo} :
    readRecords info (first :: data) = (do
      let (opcode, operand, rest) ← readRecord first data
      let info' ← info.add operand opcode
      readRecords info' rest) := by
  rw [readRecords]
  split
  · rename_i herror
    rw [herror]
    rfl
  · rename_i hread
    rw [hread]
    show _ = Except.bind (info.add _ _) _
    split
    · rename_i herror
      rw [herror]
      rfl
    · rename_i hadd
      rw [hadd]
      rfl

/-- The reader of the build system takes the records to the end. -/
theorem exists_readRecords (info : DependencyInfo) (data : List UInt8) :
    (∃ info', readRecords info data = .ok info') ↔
      Terminated data ∧ ∀ record ∈ records data, Follows record ∧ ValidOperand record := by
  induction data using records.induct generalizing info with
  | case1 =>
    rw [readRecords, records]
    exact iff_of_true ⟨info, rfl⟩ ⟨(fun b hb => nomatch hb), (fun record hrecord => nomatch hrecord)⟩
  | case2 first data ih =>
    rw [readRecords_cons, records, forall_mem_cons]
    cases hread : readRecord first data with
    | error error =>
      refine iff_of_false (fun ⟨info', h⟩ => nomatch h) ?_
      rintro ⟨hend, ⟨⟨hne, opcode, hopcode, -⟩, hvalid⟩, -⟩
      have hmem : 0 ∈ data := by
        by_contra hmem
        obtain rfl := eq_nil_of_terminated hmem hend
        exact hne rfl
      obtain ⟨record, h⟩ := exists_readRecord.mpr ⟨hmem, hne, hvalid, opcode, hopcode⟩
      rw [hread] at h
      cases h
    | ok record =>
      obtain ⟨opcode, operand, rest⟩ := record
      obtain ⟨hmem, hne, hvalid, -⟩ := exists_readRecord.mp ⟨_, hread⟩
      obtain ⟨hopcode, -, -, -, rfl⟩ := readRecord_eq_ok.mp hread
      rw [terminated_cons hmem]
      show (∃ info', (do
        let info' ← info.add operand opcode
        readRecords info' _) = Except.ok info') ↔ _
      cases hadd : info.add operand opcode with
      | error error =>
        refine iff_of_false (fun ⟨info', h⟩ => nomatch h) ?_
        rintro ⟨-, ⟨⟨-, opcode', hopcode', hversion⟩, -⟩, -⟩
        cases hopcode.symm.trans hopcode'
        obtain ⟨info', h⟩ := exists_add.mpr hversion
        rw [hadd] at h
        cases h
      | ok info' =>
        have hversion := exists_add.mp ⟨info', hadd⟩
        show (∃ info'', readRecords info' _ = Except.ok info'') ↔ _
        rw [ih info']
        constructor
        · rintro ⟨hend, hrest⟩
          exact ⟨hend, ⟨⟨hne, opcode, hopcode, hversion⟩, hvalid⟩, hrest⟩
        · rintro ⟨hend, -, hrest⟩
          exact ⟨hend, hrest⟩

theorem ofRawValue_eq_version :
    Opcode.ofRawValue first = some .version ↔ first = Opcode.version.rawValue := by
  constructor
  · intro h
    unfold Opcode.ofRawValue at h
    split_ifs at h with hfirst
    · exact hfirst
    · cases h
    · cases h
    · cases h
  · rintro rfl
    rfl

/-- **What the build system reads.** -/
theorem exists_ofBytes (bytes : List UInt8) :
    (∃ info, ofBytes bytes = .ok info) ↔ WellFormed bytes ∧ ValidOperands bytes := by
  unfold WellFormed ValidOperands
  cases bytes with
  | nil =>
    rw [records]
    refine iff_of_false (fun ⟨info, h⟩ => nomatch h) ?_
    rintro ⟨⟨-, version, rest, h, -⟩, -⟩
    cases h
  | cons first data =>
    rw [records, forall_mem_cons, ofBytes]
    cases hread : readRecord first data with
    | error error =>
      refine iff_of_false ?_ ?_
      · rintro ⟨info, h⟩
        cases h
      rintro ⟨⟨hend, version, rest, hrecords, hne, -⟩, hvalid, -⟩
      obtain ⟨hfirst, -⟩ := List.cons.inj hrecords
      cases hfirst
      have hmem : 0 ∈ data := by
        by_contra hmem
        obtain rfl := eq_nil_of_terminated hmem hend
        exact hne rfl
      obtain ⟨record, h⟩ := exists_readRecord.mpr ⟨hmem, hne, hvalid, .version, rfl⟩
      rw [hread] at h
      cases h
    | ok record =>
      obtain ⟨opcode, version, rest⟩ := record
      obtain ⟨hmem, hne, hvalid, -⟩ := exists_readRecord.mp ⟨_, hread⟩
      obtain ⟨hopcode, -, -, -, rfl⟩ := readRecord_eq_ok.mp hread
      rw [terminated_cons hmem]
      show (∃ info, (do
        if opcode ≠ .version then throw .missingVersion
        readRecords { version } _) = Except.ok info) ↔ _
      by_cases hversion : opcode = .version
      · subst hversion
        obtain rfl := ofRawValue_eq_version.mp hopcode
        show (∃ info, readRecords { version } _ = Except.ok info) ↔ _
        rw [exists_readRecords]
        constructor
        · rintro ⟨hend, hrest⟩
          exact ⟨⟨hend, _, _, rfl, hne, fun record hrecord => (hrest record hrecord).1⟩, hvalid,
            fun record hrecord => (hrest record hrecord).2⟩
        · rintro ⟨⟨hend, version', rest, hrecords, -, hfollows⟩, -, hvalid'⟩
          obtain ⟨-, rfl⟩ := List.cons.inj hrecords
          exact ⟨hend, fun record hrecord => ⟨hfollows record hrecord, hvalid' record hrecord⟩⟩
      · rw [if_pos hversion]
        refine iff_of_false (fun ⟨info, h⟩ => nomatch h) ?_
        rintro ⟨⟨-, version', rest, hrecords, -⟩, -⟩
        obtain ⟨hfirst, -⟩ := List.cons.inj hrecords
        rw [(Prod.mk.inj hfirst).1] at hopcode
        exact hversion (some.inj hopcode).symm

end DependencyInfo

namespace DependencyInfoParser

open DependencyInfo

/-- The parser of the core has no error to report in the records behind the first one. -/
theorem parseRecords_noError {position : Nat} (hposition : position ≠ 0) (data : List UInt8) :
    (∀ action ∈ parseRecords position data, action.isError = false) ↔ ∀ record ∈ records data, Follows record := by
  induction data using records.induct generalizing position with
  | case1 =>
    rw [parseRecords, records]
    exact iff_of_true (fun action haction => nomatch haction) (fun record hrecord => nomatch hrecord)
  | case2 first data ih =>
    rw [parseRecords, records, forall_mem_cons]
    dsimp only
    by_cases hne : data.takeWhile (· ≠ 0) = []
    · rw [if_pos hne]
      refine iff_of_false (fun h => ?_) (fun h => h.1.1 hne)
      cases h _ (mem_singleton_self _)
    · rw [if_neg hne, forall_mem_cons, ih (by omega)]
      refine and_congr_left fun _ => ?_
      unfold Follows
      cases hopcode : Opcode.ofRawValue first with
      | none =>
        refine iff_of_false (fun h => nomatch h) ?_
        rintro ⟨-, opcode, h, -⟩
        cases h
      | some opcode =>
        cases opcode with
        | version =>
          dsimp only
          rw [if_pos hposition]
          refine iff_of_false (fun h => nomatch h) ?_
          rintro ⟨-, opcode, h, hversion⟩
          exact hversion (some.inj h).symm
        | input => exact iff_of_true rfl ⟨hne, .input, rfl, fun h => nomatch h⟩
        | missing => exact iff_of_true rfl ⟨hne, .missing, rfl, fun h => nomatch h⟩
        | output => exact iff_of_true rfl ⟨hne, .output, rfl, fun h => nomatch h⟩

/-- **What the core reads without an error.** -/
theorem parse_noError (data : List UInt8) :
    (∀ action ∈ parse data, action.isError = false) ↔ WellFormed data := by
  unfold WellFormed parse
  cases data with
  | nil =>
    rw [records]
    refine iff_of_false (fun h => ?_) ?_
    · cases h (.error "missing null terminator" 0) (mem_singleton_self _)
    · rintro ⟨-, version, rest, h, -⟩
      cases h
  | cons first data =>
    have hend := getLast?_eq_some_zero first data
    by_cases hlast : (first :: data).getLast? = some 0
    · rw [if_neg (not_not_intro hlast), records]
      by_cases hfirst : first = Opcode.version.rawValue
      · subst hfirst
        rw [head?_cons, if_neg (not_not_intro rfl), parseRecords]
        dsimp only
        by_cases hne : data.takeWhile (· ≠ 0) = []
        · rw [if_pos hne]
          refine iff_of_false (fun h => ?_) ?_
          · cases h _ (mem_singleton_self _)
          · rintro ⟨-, version, rest, hrecords, hversion, -⟩
            obtain ⟨hrecord, -⟩ := List.cons.inj hrecords
            exact hversion ((Prod.mk.inj hrecord).2.symm.trans hne)
        · rw [if_neg hne, forall_mem_cons, parseRecords_noError (by omega)]
          constructor
          · rintro ⟨-, hrest⟩
            exact ⟨hend.mp hlast, _, _, rfl, hne, hrest⟩
          · rintro ⟨-, version, rest, hrecords, -, hrest⟩
            obtain ⟨-, rfl⟩ := List.cons.inj hrecords
            exact ⟨rfl, hrest⟩
      · rw [head?_cons, if_pos (fun h => hfirst (some.inj h))]
        refine iff_of_false (fun h => ?_) ?_
        · cases h _ (mem_singleton_self _)
        · rintro ⟨-, version, rest, hrecords, -⟩
          obtain ⟨hrecord, -⟩ := List.cons.inj hrecords
          exact hfirst (Prod.mk.inj hrecord).1
    · rw [if_pos hlast]
      refine iff_of_false (fun h => ?_) (fun h => hlast (hend.mpr h.1))
      cases h _ (mem_singleton_self _)

end DependencyInfoParser

/-! ## Reading what was written -/

namespace DependencyInfo

/-- A string that can be written. -/
def Encodable (string : String) : Prop := string ≠ "" ∧ '\x00' ∉ string.toList

/-- The strings of a dependency info, in the order in which they are written. -/
def strings (info : DependencyInfo) : List String := info.version :: (info.inputs ++ info.missing ++ info.outputs)

variable {string : String}

theorem validatingEncodability_eq_ok :
    (∃ string', validatingEncodability string = .ok string') ↔ Encodable string := by
  unfold validatingEncodability Encodable
  split_ifs with hempty hnul
  · exact iff_of_false (fun ⟨string', h⟩ => nomatch h) (fun h => h.1 hempty)
  · exact iff_of_false (fun ⟨string', h⟩ => nomatch h) (fun h => h.2 hnul)
  · exact iff_of_true ⟨string, rfl⟩ ⟨hempty, hnul⟩

/-- Validating gives the string back. -/
theorem eq_of_validatingEncodability {string' : String} (h : validatingEncodability string = .ok string') :
    string' = string := by
  unfold validatingEncodability at h
  split_ifs at h
  exact (Except.ok.inj h).symm

theorem forM_validating {strings : List String} :
    (strings.forM fun element => discard (validatingEncodability element)) = .ok () ↔
      ∀ string ∈ strings, Encodable string := by
  induction strings with
  | nil => exact iff_of_true rfl (fun string hstring => nomatch hstring)
  | cons string strings ih =>
    rw [forall_mem_cons, ← ih, ← validatingEncodability_eq_ok]
    cases hvalidating : validatingEncodability string with
    | error error =>
      refine iff_of_false (fun h => ?_) (fun h => nomatch h.1)
      rw [List.forM, hvalidating] at h
      cases h
    | ok string' =>
      rw [List.forM, hvalidating]
      exact (and_iff_right ⟨string', rfl⟩).symm

theorem validatingAll_eq_ok {strings strings' : List String} :
    validatingAll strings = .ok strings' ↔ strings' = strings ∧ ∀ string ∈ strings, Encodable string := by
  rw [← forM_validating]
  unfold validatingAll
  cases hvalidating : strings.forM fun element => discard (validatingEncodability element) with
  | error error => exact iff_of_false (fun h => nomatch h) (fun h => nomatch h.2)
  | ok result =>
    constructor
    · intro h
      exact ⟨(Except.ok.inj h).symm, rfl⟩
    · rintro ⟨rfl, -⟩
      rfl

variable (info : DependencyInfo)

/-- The file of a dependency info. -/
def written : List UInt8 :=
  Opcode.version.bytes [info.version] ++ Opcode.input.bytes info.inputs ++ Opcode.missing.bytes info.missing ++
    Opcode.output.bytes info.outputs

theorem asBytes_eq_ok {info : DependencyInfo} {bytes : List UInt8} :
    info.asBytes = .ok bytes ↔ bytes = info.written ∧ ∀ string ∈ info.strings, Encodable string := by
  unfold strings asBytes
  simp only [forall_mem_cons, forall_mem_append]
  rw [← validatingEncodability_eq_ok]
  constructor
  · intro h
    obtain ⟨version, hversion, h⟩ := Fallible.bind_eq_ok.mp h
    obtain ⟨inputs, hinputs, h⟩ := Fallible.bind_eq_ok.mp h
    obtain ⟨missing, hmissing, h⟩ := Fallible.bind_eq_ok.mp h
    obtain ⟨outputs, houtputs, h⟩ := Fallible.bind_eq_ok.mp h
    obtain rfl := eq_of_validatingEncodability hversion
    obtain ⟨rfl, hinputs'⟩ := validatingAll_eq_ok.mp hinputs
    obtain ⟨rfl, hmissing'⟩ := validatingAll_eq_ok.mp hmissing
    obtain ⟨rfl, houtputs'⟩ := validatingAll_eq_ok.mp houtputs
    exact ⟨(Except.ok.inj h).symm, ⟨_, hversion⟩, ⟨hinputs', hmissing'⟩, houtputs'⟩
  · rintro ⟨rfl, ⟨version, hversion⟩, ⟨hinputs, hmissing⟩, houtputs⟩
    obtain rfl := eq_of_validatingEncodability hversion
    rw [hversion, validatingAll_eq_ok.mpr ⟨rfl, hinputs⟩, validatingAll_eq_ok.mpr ⟨rfl, hmissing⟩,
      validatingAll_eq_ok.mpr ⟨rfl, houtputs⟩]
    rfl

/-- Writing fails exactly on a string that cannot be written. -/
theorem asBytes_eq_error :
    (∃ error, info.asBytes = .error error) ↔ ∃ string ∈ info.strings, string = "" ∨ '\x00' ∈ string.toList := by
  have hencodable : (∃ string ∈ info.strings, string = "" ∨ '\x00' ∈ string.toList) ↔
      ¬ ∀ string ∈ info.strings, Encodable string := by
    simp only [Encodable, not_forall, not_and_or, not_not, exists_prop]
  rw [hencodable]
  cases h : info.asBytes with
  | error error =>
    refine iff_of_true ⟨error, rfl⟩ fun hall => ?_
    rw [asBytes_eq_ok.mpr ⟨rfl, hall⟩] at h
    cases h
  | ok bytes => exact iff_of_false (fun ⟨error, h⟩ => nomatch h) (not_not_intro (asBytes_eq_ok.mp h).2)

theorem zero_notMem_of_encodable (h : Encodable string) : (0 : UInt8) ∉ utf8 string :=
  fun hmem => h.2 (Utf8.zero_mem_utf8.mp hmem)

theorem utf8_ne_nil (h : Encodable string) : utf8 string ≠ [] := by
  intro hnil
  have hdecoded := Utf8.fromUTF8?_utf8 string
  rw [hnil, Utf8.fromUTF8?_nil] at hdecoded
  exact h.1 (some.inj hdecoded).symm

/-- The operand of a record, and what follows it. -/
theorem takeWhile_operand {operand : List UInt8} (h : 0 ∉ operand) (rest : List UInt8) :
    (operand ++ 0 :: rest).takeWhile (· ≠ 0) = operand ∧ (operand ++ 0 :: rest).drop (operand.length + 1) = rest := by
  constructor
  · rw [takeWhile_append_of_pos, takeWhile_cons_of_neg (by decide), append_nil]
    intro b hb
    refine decide_eq_true ?_
    rintro rfl
    exact h hb
  · rw [← drop_drop, drop_left]
    rfl

theorem takeWhile_written (h : Encodable string) (rest : List UInt8) :
    (utf8 string ++ 0 :: rest).takeWhile (· ≠ 0) = utf8 string ∧
      (utf8 string ++ 0 :: rest).drop ((utf8 string).length + 1) = rest :=
  takeWhile_operand (zero_notMem_of_encodable h) rest

theorem bytes_cons (opcode : Opcode) (value : String) (values : List String) :
    opcode.bytes (value :: values) = opcode.rawValue :: (utf8 value ++ 0 :: opcode.bytes values) := by
  show opcode.rawValue :: (utf8 value ++ [0]) ++ opcode.bytes values = _
  rw [cons_append, append_assoc]
  rfl

theorem readRecord_written {value : String} (h : Encodable value) (opcode : Opcode) (rest : List UInt8) :
    readRecord opcode.rawValue (utf8 value ++ 0 :: rest) = .ok (opcode, value, rest) := by
  obtain ⟨hoperand, hrest⟩ := takeWhile_written h rest
  refine readRecord_eq_ok.mpr ⟨opcode.ofRawValue_rawValue, mem_append_right _ mem_cons_self, ?_, h.1, ?_⟩
  · rw [hoperand, Utf8.fromUTF8?_utf8]
  · rw [hoperand, hrest]

/-- The dependency info with more records of a kind. -/
def adding (values : List String) : Opcode → DependencyInfo
  | .version => info
  | .input => { info with inputs := info.inputs ++ values }
  | .missing => { info with missing := info.missing ++ values }
  | .output => { info with outputs := info.outputs ++ values }

theorem adding_nil (opcode : Opcode) : info.adding [] opcode = info := by
  cases opcode <;> simp only [adding, append_nil]

theorem adding_cons (value : String) (values : List String) (opcode : Opcode) :
    (info.adding [value] opcode).adding values opcode = info.adding (value :: values) opcode := by
  cases opcode <;> simp only [adding, append_assoc, singleton_append]

theorem add_eq_adding {opcode : Opcode} (h : opcode ≠ .version) (info : DependencyInfo) (value : String) :
    info.add value opcode = .ok (info.adding [value] opcode) := by
  cases opcode with
  | version => exact absurd rfl h
  | input | missing | output => rfl

/-- Records of one kind are read in their order. -/
theorem readRecords_bytes {opcode : Opcode} (hopcode : opcode ≠ .version) {values : List String}
    (h : ∀ value ∈ values, Encodable value) (info : DependencyInfo) (rest : List UInt8) :
    readRecords info (opcode.bytes values ++ rest) = readRecords (info.adding values opcode) rest := by
  induction values generalizing info with
  | nil => rw [adding_nil]; rfl
  | cons value values ih =>
    obtain ⟨hvalue, hvalues⟩ := forall_mem_cons.mp h
    rw [bytes_cons, cons_append, append_assoc, cons_append, readRecords_cons,
      readRecord_written hvalue]
    show (info.add value opcode).bind (fun info' => readRecords info' (opcode.bytes values ++ rest)) = _
    rw [add_eq_adding hopcode]
    show readRecords (info.adding [value] opcode) (opcode.bytes values ++ rest) = _
    rw [ih hvalues, adding_cons]

/-- The version record comes first. -/
theorem written_eq : info.written = Opcode.version.rawValue :: (utf8 info.version ++
    0 :: (Opcode.input.bytes info.inputs ++ (Opcode.missing.bytes info.missing ++
      (Opcode.output.bytes info.outputs ++ [])))) := by
  unfold written
  rw [bytes_cons]
  simp only [cons_append, append_assoc, append_nil]
  rfl

/-- **The build system reads what it wrote.** -/
theorem ofBytes_written {info : DependencyInfo} (h : ∀ string ∈ info.strings, Encodable string) :
    ofBytes info.written = .ok info := by
  unfold strings at h
  simp only [forall_mem_cons, forall_mem_append] at h
  obtain ⟨hversion, ⟨hinputs, hmissing⟩, houtputs⟩ := h
  rw [written_eq, ofBytes, readRecord_written hversion]
  show readRecords { version := info.version } _ = _
  rw [readRecords_bytes (by decide) hinputs, readRecords_bytes (by decide) hmissing,
    readRecords_bytes (by decide) houtputs, readRecords]
  rfl

end DependencyInfo

namespace DependencyInfoParser

open DependencyInfo

/-- The action for an operand. -/
def actOn : Opcode → List UInt8 → Action
  | .version => .actOnVersion
  | .input => .actOnInput
  | .missing => .actOnMissing
  | .output => .actOnOutput

theorem parseRecords_bytes {opcode : Opcode} (hopcode : opcode ≠ .version) {values : List String}
    (h : ∀ value ∈ values, Encodable value) (position : Nat) (rest : List UInt8) :
    parseRecords position (opcode.bytes values ++ rest) =
      values.map (fun value => actOn opcode (utf8 value)) ++
        parseRecords (position + (opcode.bytes values).length) rest := by
  induction values generalizing position with
  | nil => rfl
  | cons value values ih =>
    obtain ⟨hvalue, hvalues⟩ := forall_mem_cons.mp h
    obtain ⟨hoperand, hrest⟩ := takeWhile_written hvalue (opcode.bytes values ++ rest)
    rw [bytes_cons, cons_append, append_assoc, cons_append, parseRecords]
    dsimp only
    rw [hoperand, hrest, if_neg (utf8_ne_nil hvalue), opcode.ofRawValue_rawValue, ih hvalues]
    have hlength : position + 1 + (utf8 value).length + 1 + (opcode.bytes values).length =
        position + (opcode.rawValue :: (utf8 value ++ 0 :: opcode.bytes values)).length := by
      rw [length_cons, length_append, length_cons]
      omega
    rw [hlength]
    cases opcode with
    | version => exact absurd rfl hopcode
    | input | missing | output => rfl

/-- **The core reads what the build system wrote.** -/
theorem parse_written {info : DependencyInfo} (h : ∀ string ∈ info.strings, Encodable string) :
    parse info.written = .actOnVersion (utf8 info.version) ::
      (info.inputs.map (fun path => .actOnInput (utf8 path)) ++
        info.missing.map (fun path => .actOnMissing (utf8 path)) ++
          info.outputs.map (fun path => .actOnOutput (utf8 path))) := by
  have hend := ((exists_ofBytes _).mp ⟨info, ofBytes_written h⟩).1.1
  unfold strings at h
  simp only [forall_mem_cons, forall_mem_append] at h
  obtain ⟨hversion, ⟨hinputs, hmissing⟩, houtputs⟩ := h
  rw [written_eq] at hend ⊢
  rw [parse, if_neg (not_not_intro ((getLast?_eq_some_zero _ _).mpr hend)), head?_cons,
    if_neg (not_not_intro rfl), parseRecords]
  dsimp only
  obtain ⟨hoperand, hrest⟩ := takeWhile_written hversion (Opcode.input.bytes info.inputs ++
    (Opcode.missing.bytes info.missing ++ (Opcode.output.bytes info.outputs ++ [])))
  rw [hoperand, hrest, if_neg (utf8_ne_nil hversion), parseRecords_bytes (by decide) hinputs,
    parseRecords_bytes (by decide) hmissing, parseRecords_bytes (by decide) houtputs, parseRecords, append_nil,
    ← append_assoc]
  rfl

end DependencyInfoParser

/-- **Two readers of dependency info**: writing fails exactly on a string that is empty or contains a null character;
otherwise the build system reads the same value back and the core the same records, without an error; and of all files
with operands in UTF-8, both take the same ones. -/
theorem DependencyInfo.asBytes_readers (info : DependencyInfo) :
    ((∃ error, info.asBytes = .error error) ↔
        ∃ string ∈ info.version :: (info.inputs ++ info.missing ++ info.outputs),
          string = "" ∨ '\x00' ∈ string.toList) ∧
      (∀ bytes, info.asBytes = .ok bytes → ofBytes bytes = .ok info ∧
        DependencyInfoParser.parse bytes = .actOnVersion (utf8 info.version) ::
          (info.inputs.map (fun path => .actOnInput (utf8 path)) ++
            info.missing.map (fun path => .actOnMissing (utf8 path)) ++
              info.outputs.map (fun path => .actOnOutput (utf8 path)))) ∧
      ∀ bytes, ValidOperands bytes → ((∃ info', ofBytes bytes = .ok info') ↔
        ∀ action ∈ DependencyInfoParser.parse bytes, action.isError = false) := by
  refine ⟨asBytes_eq_error info, fun bytes h => ?_, fun bytes hvalid => ?_⟩
  · obtain ⟨rfl, hencodable⟩ := asBytes_eq_ok.mp h
    exact ⟨ofBytes_written hencodable, DependencyInfoParser.parse_written hencodable⟩
  · rw [exists_ofBytes, DependencyInfoParser.parse_noError]
    exact and_iff_left hvalid

/-- A file is taken up to the last record, which has an unknown opcode. -/
example : DependencyInfoParser.parse [0, 65, 0, 16, 66, 0, 1, 67, 0] =
    [.actOnVersion [65], .actOnInput [66], .error "unknown opcode in file" 6] := by
  simp [DependencyInfoParser.parse, DependencyInfoParser.parseRecords, DependencyInfo.Opcode.ofRawValue,
    DependencyInfo.Opcode.rawValue]

end Builra
