import Builra.Util.DependencyInfo

namespace Builra

open List Option

/-!
# `Core.DependencyInfoParser` — the parser of the core at the end of the data

The scan for the null behind an operand has no other bound than that null. Here the data is all that there is: a parser
that reads outside has no result. `Util.DependencyInfo` has the same parser over buffers with a null behind their end.
-/

namespace DependencyInfoParser

open DependencyInfo (Opcode)

/-- The operand at the cursor, and what is behind its null; none if no null is found inside the data. -/
def scanOperand : List UInt8 → Option (List UInt8 × List UInt8)
  | [] => none
  | b :: data =>
    if b = 0 then some ([], data)
    else
      match scanOperand data with
      | none => none
      | some (operand, rest) => some (b :: operand, rest)

/-- The action for a record that starts at a position. -/
def handle (position : Nat) (opcode : UInt8) (operand : List UInt8) : Action :=
  match Opcode.ofRawValue opcode with
  | some .version =>
    if position ≠ 0 then .error "invalid duplicate version" position else .actOnVersion operand
  | some .input => .actOnInput operand
  | some .missing => .actOnMissing operand
  | some .output => .actOnOutput operand
  | none => .error "unknown opcode in file" position

variable {data operand : List UInt8} {actions : List Action} {position : Nat}

theorem eq_of_scanOperand {rest : List UInt8} (h : scanOperand data = some (operand, rest)) :
    data = operand ++ 0 :: rest ∧ 0 ∉ operand := by
  induction data generalizing operand with
  | nil => cases h
  | cons b data ih =>
    rw [scanOperand] at h
    by_cases hb : b = 0
    · rw [if_pos hb] at h
      cases h
      exact ⟨by rw [hb, nil_append], not_mem_nil⟩
    · rw [if_neg hb] at h
      cases hscan : scanOperand data with
      | none =>
        rw [hscan] at h
        cases h
      | some found =>
        obtain ⟨operand', rest'⟩ := found
        rw [hscan] at h
        cases h
        obtain ⟨hdata, hzero⟩ := ih hscan
        refine ⟨by rw [hdata, cons_append], fun hmem => ?_⟩
        rcases mem_cons.mp hmem with heq | hmem
        · exact hb heq.symm
        · exact hzero hmem

theorem scanOperand_append (h : 0 ∉ operand) (rest : List UInt8) :
    scanOperand (operand ++ 0 :: rest) = some (operand, rest) := by
  induction operand with
  | nil => rfl
  | cons b operand ih =>
    have hb : b ≠ 0 := fun heq => h (heq ▸ mem_cons_self)
    rw [cons_append, scanOperand, if_neg hb, ih (not_mem_of_not_mem_cons h)]

theorem scanOperand_eq_none : scanOperand data = none ↔ 0 ∉ data := by
  induction data with
  | nil => exact iff_of_true rfl not_mem_nil
  | cons b data ih =>
    rw [scanOperand]
    by_cases hb : b = 0
    · rw [if_pos hb, hb]
      exact iff_of_false (fun h => nomatch h) (not_not_intro mem_cons_self)
    · have hmem : 0 ∉ b :: data ↔ 0 ∉ data := by
        rw [mem_cons, not_or]
        exact and_iff_right (Ne.symm hb)
      rw [if_neg hb, hmem, ← ih]
      cases scanOperand data with
      | none => exact iff_of_true rfl rfl
      | some found => exact iff_of_false (fun h => nomatch h) (fun h => nomatch h)

/-- The loop over the records; none if it reads outside the data. -/
def readRecords (position : Nat) : List UInt8 → Option (List Action)
  | [] => some []
  | opcode :: data =>
    match _hscan : scanOperand data with
    | none => none
    | some (operand, rest) =>
      if operand = [] then some [.error "empty operand" position]
      else
        match readRecords (position + 1 + operand.length + 1) rest with
        | none => none
        | some actions => some (handle position opcode operand :: actions)
termination_by data => data.length
decreasing_by
  obtain ⟨rfl, -⟩ := eq_of_scanOperand _hscan
  simp only [length_append, length_cons]
  omega

/-- `parse`, none if it reads outside the data. -/
def parseWithin (data : List UInt8) : Option (List Action) :=
  if data.getLast? ≠ some 0 then some [.error "missing null terminator" data.length]
  else if data.head? ≠ some Opcode.version.rawValue then some [.error "missing version record" 0]
  else readRecords 0 data

/-! ## One record -/

section

variable {position : Nat} {opcode : UInt8} {data operand rest : List UInt8}

theorem readRecords_of_none (h : 0 ∉ data) : readRecords position (opcode :: data) = none := by
  rw [readRecords]
  split
  · rfl
  · rename_i hscan
    rw [scanOperand_eq_none.mpr h] at hscan
    cases hscan

theorem readRecords_of_empty : readRecords position (opcode :: 0 :: rest) = some [.error "empty operand" position] := by
  rw [readRecords]
  split
  · rename_i hscan
    cases hscan
  · rename_i hscan
    obtain ⟨rfl, -⟩ := Prod.mk.inj (some.inj hscan)
    rw [if_pos rfl]

theorem readRecords_of_operand (hne : operand ≠ []) (hzero : 0 ∉ operand) :
    readRecords position (opcode :: (operand ++ 0 :: rest)) =
      (readRecords (position + 1 + operand.length + 1) rest).map (handle position opcode operand :: ·) := by
  rw [readRecords]
  split
  · rename_i hscan
    rw [scanOperand_append hzero] at hscan
    cases hscan
  · rename_i hscan
    rw [scanOperand_append hzero] at hscan
    cases hscan
    rw [if_neg hne]
    cases readRecords (position + 1 + operand.length + 1) rest with
    | none => rfl
    | some actions => rfl

/-- The data at an opcode: no null follows, or one does, behind an operand that may be empty. -/
theorem record_cases (data : List UInt8) :
    0 ∉ data ∨ (∃ rest, data = 0 :: rest) ∨ ∃ operand rest, operand ≠ [] ∧ 0 ∉ operand ∧ data = operand ++ 0 :: rest := by
  cases hscan : scanOperand data with
  | none => exact .inl (scanOperand_eq_none.mp hscan)
  | some found =>
    obtain ⟨operand, rest⟩ := found
    obtain ⟨hdata, hzero⟩ := eq_of_scanOperand hscan
    by_cases hne : operand = []
    · rw [hne, nil_append] at hdata
      exact .inr (.inl ⟨rest, hdata⟩)
    · exact .inr (.inr ⟨operand, rest, hne, hzero, hdata⟩)

end

/-- Induction on the data, record by record. -/
theorem record_induction {P : List UInt8 → Prop} (nil : P [])
    (unterminated : ∀ opcode data, 0 ∉ data → P (opcode :: data)) (empty : ∀ opcode rest, P (opcode :: 0 :: rest))
    (record : ∀ opcode operand rest, operand ≠ [] → 0 ∉ operand → P rest → P (opcode :: (operand ++ 0 :: rest)))
    (data : List UInt8) : P data := by
  induction hlength : data.length using Nat.strongRecOn generalizing data with
  | ind n ih =>
    cases data with
    | nil => exact nil
    | cons opcode data =>
      rcases record_cases data with hzero | ⟨rest, rfl⟩ | ⟨operand, rest, hne, hzero, rfl⟩
      · exact unterminated opcode data hzero
      · exact empty opcode rest
      · refine record opcode operand rest hne hzero (ih rest.length ?_ rest rfl)
        rw [← hlength, length_cons, length_append, length_cons]
        omega

/-! ## Where the parser reads outside -/

/-- An operand of the format. -/
structure Operand where
  bytes : List UInt8
  ne_nil : bytes ≠ []
  nulFree : 0 ∉ bytes

/-- A record: a byte, an operand and a null. -/
def record (opcode : UInt8) (operand : Operand) : List UInt8 := opcode :: (operand.bytes ++ [0])

/-- The records of a file, whatever their opcodes. -/
def complete (records : List (UInt8 × Operand)) : List UInt8 := records.flatMap fun r => record r.1 r.2

/-- The last null of the data is an opcode without an operand. -/
def Dangling (data : List UInt8) : Prop :=
  data.head? = some Opcode.version.rawValue ∧ ∃ records, data = complete records ++ [0]

theorem record_append (opcode : UInt8) (operand : Operand) (rest : List UInt8) :
    record opcode operand ++ rest = opcode :: (operand.bytes ++ 0 :: rest) := by
  rw [record, cons_append, append_assoc, singleton_append]

theorem complete_cons_append (opcode : UInt8) (operand : Operand) (records : List (UInt8 × Operand))
    (rest : List UInt8) :
    complete ((opcode, operand) :: records) ++ rest = opcode :: (operand.bytes ++ 0 :: (complete records ++ rest)) := by
  show (record opcode operand ++ complete records) ++ rest = _
  rw [append_assoc, record_append]

theorem readRecords_complete (position : Nat) (records : List (UInt8 × Operand)) :
    readRecords position (complete records ++ [0]) = none := by
  induction records generalizing position with
  | nil => exact readRecords_of_none not_mem_nil
  | cons first records ih =>
    obtain ⟨opcode, operand⟩ := first
    rw [complete_cons_append, readRecords_of_operand operand.ne_nil operand.nulFree, ih]
    rfl

/-- The loop reads outside where complete records are followed by an opcode behind which there is no null. -/
theorem eq_of_readRecords_none (h : readRecords position data = none) :
    ∃ records opcode rest, 0 ∉ rest ∧ data = complete records ++ opcode :: rest := by
  induction data using record_induction generalizing position with
  | nil =>
    rw [readRecords] at h
    cases h
  | unterminated opcode data hzero => exact ⟨[], opcode, data, hzero, rfl⟩
  | empty opcode rest =>
    rw [readRecords_of_empty] at h
    cases h
  | record opcode operand rest hne hzero ih =>
    rw [readRecords_of_operand hne hzero, map_eq_none_iff] at h
    obtain ⟨records, opcode', rest', hzero', rfl⟩ := ih h
    refine ⟨(opcode, ⟨operand, hne, hzero⟩) :: records, opcode', rest', hzero', ?_⟩
    rw [complete_cons_append]

theorem parseWithin_eq_none (data : List UInt8) : parseWithin data = none ↔ Dangling data := by
  unfold parseWithin
  constructor
  · intro h
    by_cases hlast : data.getLast? = some 0
    · rw [if_neg (not_not_intro hlast)] at h
      by_cases hhead : data.head? = some Opcode.version.rawValue
      · rw [if_neg (not_not_intro hhead)] at h
        obtain ⟨records, opcode, rest, hzero, rfl⟩ := eq_of_readRecords_none h
        rw [getLast?_append_of_ne_nil _ (cons_ne_nil _ _)] at hlast
        cases rest with
        | nil =>
          cases hlast
          exact ⟨hhead, records, rfl⟩
        | cons b rest =>
          rw [getLast?_cons_cons] at hlast
          exact absurd (mem_of_getLast? hlast) hzero
      · rw [if_pos hhead] at h
        cases h
    · rw [if_pos hlast] at h
      cases h
  · rintro ⟨hhead, records, rfl⟩
    rw [if_neg (not_not_intro getLast?_concat), if_neg (not_not_intro hhead)]
    exact readRecords_complete 0 records

/-! ## The format -/

/-- The records that may follow the version. -/
inductive RecordKind where
  | input
  | missing
  | output

def RecordKind.opcode : RecordKind → Opcode
  | .input => .input
  | .missing => .missing
  | .output => .output

/-- Records that follow the version. -/
def encodeRecords (records : List (RecordKind × Operand)) : List UInt8 :=
  records.flatMap fun r => record r.1.opcode.rawValue r.2

/-- A file: the version record, then the others. -/
def encode (version : Operand) (records : List (RecordKind × Operand)) : List UInt8 :=
  record Opcode.version.rawValue version ++ encodeRecords records

def event (r : RecordKind × Operand) : Action := actOn r.1.opcode r.2.bytes

theorem handle_event (kind : RecordKind) (operand : Operand) (position : Nat) :
    handle position kind.opcode.rawValue operand.bytes = event (kind, operand) := by
  unfold handle
  rw [kind.opcode.ofRawValue_rawValue]
  cases kind with
  | input => rfl
  | missing => rfl
  | output => rfl

/-- An opcode that is taken behind the version. -/
theorem kind_of_handle (hposition : position ≠ 0) {opcode : UInt8}
    (h : (handle position opcode operand).isError = false) : ∃ kind : RecordKind, kind.opcode.rawValue = opcode := by
  unfold handle at h
  unfold Opcode.ofRawValue at h
  by_cases hversion : opcode = 0x00
  · rw [if_pos hversion] at h
    simp only [if_pos hposition] at h
    cases h
  rw [if_neg hversion] at h
  by_cases hinput : opcode = 0x10
  · exact ⟨.input, hinput.symm⟩
  rw [if_neg hinput] at h
  by_cases hmissing : opcode = 0x11
  · exact ⟨.missing, hmissing.symm⟩
  rw [if_neg hmissing] at h
  by_cases houtput : opcode = 0x40
  · exact ⟨.output, houtput.symm⟩
  · rw [if_neg houtput] at h
    cases h

theorem encodeRecords_cons (kind : RecordKind) (operand : Operand) (records : List (RecordKind × Operand)) :
    encodeRecords ((kind, operand) :: records) =
      kind.opcode.rawValue :: (operand.bytes ++ 0 :: encodeRecords records) :=
  record_append kind.opcode.rawValue operand (encodeRecords records)

theorem readRecords_encodeRecords (position : Nat) (records : List (RecordKind × Operand)) :
    readRecords position (encodeRecords records) = some (records.map event) := by
  induction records generalizing position with
  | nil =>
    show readRecords position [] = _
    rw [readRecords]
    rfl
  | cons first records ih =>
    obtain ⟨kind, operand⟩ := first
    rw [encodeRecords_cons, readRecords_of_operand operand.ne_nil operand.nulFree, ih, map_some, handle_event,
      map_cons]

/-- Behind the version, no error means that the data are records. -/
theorem encodeRecords_of_noError (hposition : position ≠ 0) (h : readRecords position data = some actions)
    (herrors : ∀ action ∈ actions, action.isError = false) : ∃ records, data = encodeRecords records := by
  induction data using record_induction generalizing position actions with
  | nil => exact ⟨[], rfl⟩
  | unterminated opcode data hzero =>
    rw [readRecords_of_none hzero] at h
    cases h
  | empty opcode rest =>
    rw [readRecords_of_empty] at h
    cases h
    cases herrors _ mem_cons_self
  | record opcode operand rest hne hzero ih =>
    rw [readRecords_of_operand hne hzero] at h
    obtain ⟨actions', hactions', rfl⟩ := map_eq_some_iff.mp h
    obtain ⟨hfirst, hrest⟩ := forall_mem_cons.mp herrors
    obtain ⟨kind, rfl⟩ := kind_of_handle hposition hfirst
    obtain ⟨records, rfl⟩ := ih (by omega) hactions' hrest
    exact ⟨(kind, ⟨operand, hne, hzero⟩) :: records, (encodeRecords_cons kind ⟨operand, hne, hzero⟩ records).symm⟩

theorem getLast?_record (opcode : UInt8) (operand : Operand) : (record opcode operand).getLast? = some 0 := by
  rw [record, ← cons_append, getLast?_concat]

theorem getLast?_encodeRecords {front : List UInt8} (h : front.getLast? = some 0)
    (records : List (RecordKind × Operand)) : (front ++ encodeRecords records).getLast? = some 0 := by
  induction records generalizing front with
  | nil =>
    rw [encodeRecords, flatMap_nil, append_nil]
    exact h
  | cons first records ih =>
    rw [encodeRecords, flatMap_cons, ← append_assoc]
    refine ih ?_
    rw [getLast?_append, getLast?_record]
    rfl

theorem parseWithin_encode (version : Operand) (records : List (RecordKind × Operand)) :
    parseWithin (encode version records) = some (.actOnVersion version.bytes :: records.map event) := by
  have hdata : encode version records = Opcode.version.rawValue :: (version.bytes ++ 0 :: encodeRecords records) :=
    record_append _ version _
  have hread : readRecords 0 (encode version records) = some (.actOnVersion version.bytes :: records.map event) := by
    rw [hdata, readRecords_of_operand version.ne_nil version.nulFree, readRecords_encodeRecords]
    rfl
  have hlast : (encode version records).getLast? = some 0 :=
    getLast?_encodeRecords (getLast?_record Opcode.version.rawValue version) records
  have hhead : (encode version records).head? = some Opcode.version.rawValue := by rw [hdata, head?_cons]
  rw [parseWithin, if_neg (not_not_intro hlast), if_neg (not_not_intro hhead), hread]

theorem encode_of_noError (h : parseWithin data = some actions) (herrors : ∀ action ∈ actions, action.isError = false) :
    ∃ version records, data = encode version records := by
  unfold parseWithin at h
  by_cases hlast : data.getLast? = some 0
  · rw [if_neg (not_not_intro hlast)] at h
    by_cases hhead : data.head? = some Opcode.version.rawValue
    · rw [if_neg (not_not_intro hhead)] at h
      cases data with
      | nil => cases hhead
      | cons opcode data =>
        cases hhead
        rcases record_cases data with hzero | ⟨rest, rfl⟩ | ⟨operand, rest, hne, hzero, rfl⟩
        · rw [readRecords_of_none hzero] at h
          cases h
        · rw [readRecords_of_empty] at h
          cases h
          cases herrors _ mem_cons_self
        · rw [readRecords_of_operand hne hzero] at h
          obtain ⟨actions', hactions', rfl⟩ := map_eq_some_iff.mp h
          obtain ⟨records, rfl⟩ := encodeRecords_of_noError (by omega) hactions' (forall_mem_cons.mp herrors).2
          exact ⟨⟨operand, hne, hzero⟩, records, (record_append _ ⟨operand, hne, hzero⟩ _).symm⟩
    · rw [if_pos hhead] at h
      cases h
      cases herrors _ mem_cons_self
  · rw [if_pos hlast] at h
    cases h
    cases herrors _ mem_cons_self

/-- What parsing is to do: stay inside the data, report the records of a file as they are, and an error for anything
    that is not a file. -/
def ParsedRight (data : List UInt8) : Prop :=
  ∃ actions, parseWithin data = some actions ∧
    (∀ version records, data = encode version records →
      actions = .actOnVersion version.bytes :: records.map event) ∧
    ((¬ ∃ version records, data = encode version records) → ∃ action ∈ actions, action.isError = true)

/-- **The parser of the core** does so for all data that do not end in a null that is taken for an opcode. -/
theorem parsedRight_iff (data : List UInt8) : ParsedRight data ↔ ¬ Dangling data := by
  rw [← parseWithin_eq_none]
  constructor
  · rintro ⟨actions, hparse, -⟩ hnone
    rw [hparse] at hnone
    cases hnone
  · intro hsome
    obtain ⟨actions, hparse⟩ := ne_none_iff_exists'.mp hsome
    refine ⟨actions, hparse, ?_, ?_⟩
    · rintro version records rfl
      rw [parseWithin_encode] at hparse
      exact (some.inj hparse).symm
    · intro hno
      by_contra herror
      refine hno (encode_of_noError hparse fun action haction => ?_)
      exact Bool.eq_false_iff.mpr fun htrue => herror ⟨action, haction, htrue⟩

/-- A file of one null. -/
theorem null_not_parsedRight : ¬ ParsedRight [0] := by
  rintro ⟨actions, hparse, -⟩
  rw [(parseWithin_eq_none [0]).mpr ⟨rfl, [], rfl⟩] at hparse
  cases hparse

end DependencyInfoParser

end Builra
