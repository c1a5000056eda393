import Builra.Basic.BinaryCoding

namespace Builra

open List Option UInt32 Nat

/-!
# `BuildSystem.BuildKey` — the keys of the build system and their coding

A key is a byte string: a letter for its kind, then either a name, or the size of a name, the name and
encoded data. The constructor for the second form keeps its position in a `uint32_t`, which wraps when the
name takes the last five of the sizes it can have: the data is then written over the head of the key.
`buildKey_coding` says exactly which keys can be read back and told apart.

The size of the name is copied with `memcpy`; the model takes the byte order of the encoder.
-/

open Codec

namespace BuildKey

/-- `BuildKey::Kind`. -/
inductive Kind where
  | command
  | customTask
  | directoryContents
  | filteredDirectoryContents
  | directoryTreeSignature
  | directoryTreeStructureSignature
  | node
  | stat
  | target
  | unknown
deriving DecidableEq, Repr

def identifierForKind : Kind → UInt8
  | .command => 'C'.toUInt8
  | .directoryContents => 'D'.toUInt8
  | .filteredDirectoryContents => 'd'.toUInt8
  | .node => 'N'.toUInt8
  | .stat => 'I'.toUInt8
  | .directoryTreeSignature => 'S'.toUInt8
  | .directoryTreeStructureSignature => 's'.toUInt8
  | .target => 'T'.toUInt8
  | .customTask => 'X'.toUInt8
  | .unknown => ' '.toUInt8

def kindForIdentifier (identifier : UInt8) : Kind :=
  if identifier = 'C'.toUInt8 then .command
  else if identifier = 'D'.toUInt8 then .directoryContents
  else if identifier = 'd'.toUInt8 then .filteredDirectoryContents
  else if identifier = 'N'.toUInt8 then .node
  else if identifier = 'I'.toUInt8 then .stat
  else if identifier = 'S'.toUInt8 then .directoryTreeSignature
  else if identifier = 's'.toUInt8 then .directoryTreeStructureSignature
  else if identifier = 'T'.toUInt8 then .target
  else if identifier = 'X'.toUInt8 then .customTask
  else .unknown

theorem kindForIdentifier_identifierForKind (kind : Kind) :
    kindForIdentifier (identifierForKind kind) = kind := by
  cases kind <;> decide

end BuildKey

open BuildKey

/-- `BuildKey`: the key data. -/
structure BuildKey where
  key : KeyType
deriving DecidableEq

namespace BuildKey

/-! ## Construction -/

/-- The constructor for a kind with a name only. -/
def ofName (kindCode : UInt8) (str : List UInt8) : BuildKey := { key := kindCode :: str }

/-- `memcpy` of `bytes` to position `pos` of a buffer. -/
def memcpy (buffer : List UInt8) (pos : Nat) (bytes : List UInt8) : List UInt8 :=
  buffer.take pos ++ (bytes ++ buffer.drop (pos + bytes.length))

/-- The constructor for a kind with a name and data; `data` is what the encoder holds. All positions and
    sizes are `uint32_t`. -/
def ofNameAndData (kindCode : UInt8) (name data : List UInt8) : BuildKey :=
  let nameSize := UInt32.ofNat name.length
  let dataSize := UInt32.ofNat data.length
  let encodedKey := List.replicate (1 + 4 + nameSize.toNat + dataSize.toNat) 0
  let pos : UInt32 := 0
  let encodedKey := memcpy encodedKey pos.toNat [kindCode]
  let pos := pos + 1
  let encodedKey := memcpy encodedKey pos.toNat (encode nameSize)
  let pos := pos + 4
  let encodedKey := memcpy encodedKey pos.toNat (name.take nameSize.toNat)
  let pos := pos + nameSize
  let encodedKey := memcpy encodedKey pos.toNat (data.take dataSize.toNat)
  { key := encodedKey }

def makeCommand (name : List UInt8) : BuildKey := ofName (identifierForKind .command) name

def makeCustomTask (name taskData : List UInt8) : BuildKey :=
  ofNameAndData (identifierForKind .customTask) name taskData

variable (path : List UInt8)

def makeDirectoryContents : BuildKey :=
  ofName (identifierForKind .directoryContents) path

variable (filters : StringList)

def makeFilteredDirectoryContents : BuildKey :=
  ofNameAndData (identifierForKind .filteredDirectoryContents) path (encode filters)

def makeDirectoryTreeSignature : BuildKey :=
  ofNameAndData (identifierForKind .directoryTreeSignature) path (encode filters)

def makeDirectoryTreeStructureSignature : BuildKey :=
  ofNameAndData (identifierForKind .directoryTreeStructureSignature) path (encode filters)

def makeNode : BuildKey := ofName (identifierForKind .node) path

def makeStat : BuildKey := ofName (identifierForKind .stat) path

def makeTarget (name : List UInt8) : BuildKey := ofName (identifierForKind .target) name

/-! ## Accessors -/

variable (k : BuildKey)

/-- `getKind`; a key is never empty. -/
def getKind : Kind := (k.key.head?.map kindForIdentifier).getD .unknown

/-- A `StringRef` into the key; none if it leaves the key. -/
def slice (pos len : Nat) : Option (List UInt8) :=
  if pos + len ≤ k.key.length then some ((k.key.drop pos).take len) else none

/-- The name of a key that is a kind and a name. -/
def plainName (kind : Kind) : Option (List UInt8) :=
  if k.getKind = kind then some (k.key.drop 1) else none

/-- The size of the name that the key says. -/
def nameSize : Option UInt32 :=
  ((decode : Reader UInt32).run (k.key.drop 1)).map (fun result => result.1)

/-- The name of a key with data. -/
def sizedName : Option (List UInt8) := do
  let nameSize ← k.nameSize
  k.slice (1 + 4) nameSize.toNat

/-- The data of a key with a name and data. -/
def sizedData : Option (List UInt8) := do
  let nameSize ← k.nameSize
  let dataSize := (UInt64.ofNat k.key.length - 1 - 4 - nameSize.toUInt64).toUInt32
  k.slice (1 + 4 + nameSize.toNat) dataSize.toNat

def getCommandName : Option (List UInt8) := k.plainName .command

def getDirectoryPath : Option (List UInt8) := k.plainName .directoryContents

def getNodeName : Option (List UInt8) := k.plainName .node

def getStatName : Option (List UInt8) := k.plainName .stat

def getTargetName : Option (List UInt8) := k.plainName .target

def getCustomTaskName : Option (List UInt8) :=
  if k.getKind = .customTask then k.sizedName else none

def getCustomTaskData : Option (List UInt8) :=
  if k.getKind = .customTask then k.sizedData else none

def getDirectoryTreeSignaturePath : Option (List UInt8) :=
  if k.getKind = .directoryTreeSignature then k.sizedName else none

def getFilteredDirectoryPath : Option (List UInt8) :=
  if k.getKind = .filteredDirectoryContents ∨ k.getKind = .directoryTreeStructureSignature then k.sizedName
  else none

def getContentExclusionPatterns : Option (List UInt8) :=
  if k.getKind = .directoryTreeSignature ∨ k.getKind = .directoryTreeStructureSignature ∨
    k.getKind = .filteredDirectoryContents then k.sizedData
  else none

def getContentExclusionPatternsAsStringList : Option StringList := do
  let patterns ← k.getContentExclusionPatterns
  ((decode : Reader StringList).run patterns).map (fun result => result.1)

/-! ## What keys are made from -/

/-- The arguments of the construction functions. -/
inductive Args where
  | command (name : List UInt8)
  | customTask (name taskData : List UInt8)
  | directoryContents (path : List UInt8)
  | filteredDirectoryContents (path : List UInt8) (filters : StringList)
  | directoryTreeSignature (path : List UInt8) (filters : StringList)
  | directoryTreeStructureSignature (path : List UInt8) (filters : StringList)
  | node (path : List UInt8)
  | stat (path : List UInt8)
  | target (name : List UInt8)

namespace Args

def make : Args → BuildKey
  | command name => makeCommand name
  | customTask name taskData => makeCustomTask name taskData
  | directoryContents path => makeDirectoryContents path
  | filteredDirectoryContents path filters => makeFilteredDirectoryContents path filters
  | directoryTreeSignature path filters => makeDirectoryTreeSignature path filters
  | directoryTreeStructureSignature path filters => makeDirectoryTreeStructureSignature path filters
  | node path => makeNode path
  | stat path => makeStat path
  | target name => makeTarget name

/-- Every name, path, data string and filter list is shorter than `2 ^ 32` bytes. -/
def Bounded : Args → Prop
  | command name | directoryContents name | node name | stat name | target name => name.length < 2 ^ 32
  | customTask name taskData => name.length < 2 ^ 32 ∧ taskData.length < 2 ^ 32
  | filteredDirectoryContents path filters | directoryTreeSignature path filters
  | directoryTreeStructureSignature path filters =>
    path.length < 2 ^ 32 ∧ filters.contents.length < 2 ^ 32

/-- The accessors for the kind return the arguments. -/
def Recovered (a : Args) : Prop :=
  match a with
  | command name => a.make.getCommandName = some name
  | customTask name taskData =>
    a.make.getCustomTaskName = some name ∧ a.make.getCustomTaskData = some taskData
  | directoryContents path => a.make.getDirectoryPath = some path
  | filteredDirectoryContents path filters | directoryTreeStructureSignature path filters =>
    a.make.getFilteredDirectoryPath = some path ∧
      a.make.getContentExclusionPatternsAsStringList = some filters
  | directoryTreeSignature path filters =>
    a.make.getDirectoryTreeSignaturePath = some path ∧
      a.make.getContentExclusionPatternsAsStringList = some filters
  | node path => a.make.getNodeName = some path
  | stat path => a.make.getStatName = some path
  | target name => a.make.getTargetName = some name

/-- The end of the name and the encoded data fit into a `uint32_t`, if there is data to write. -/
def Fits : Args → Prop
  | customTask name taskData => taskData = [] ∨ 1 + 4 + name.length < 2 ^ 32
  | filteredDirectoryContents path filters | directoryTreeSignature path filters
  | directoryTreeStructureSignature path filters =>
    1 + 4 + path.length < 2 ^ 32 ∧ 8 + filters.contents.length < 2 ^ 32
  | _ => True

end Args

/-! ## The layout of keys -/

/-- Copying to the front of the part that is still empty. -/
theorem memcpy_replicate (front bytes : List UInt8) (m : Nat) :
    memcpy (front ++ List.replicate (bytes.length + m) 0) front.length bytes
      = front ++ (bytes ++ List.replicate m 0) := by
  rw [memcpy, take_left]
  congr 2
  rw [drop_append, drop_of_length_le (by omega), drop_replicate]
  simp only [nil_append]
  congr 1
  omega

theorem toNat_uint32_ofNat (n : Nat) : (UInt32.ofNat n).toNat = n % 2 ^ 32 := toNat_ofNat'

/-- The head of a key with data, before the data is written. -/
def keyHead (kindCode : UInt8) (name : List UInt8) : List UInt8 :=
  kindCode :: (encode (UInt32.ofNat name.length) ++ name)

theorem length_keyHead (kindCode : UInt8) (name : List UInt8) :
    (keyHead kindCode name).length = 1 + 4 + name.length := by
  simp only [keyHead, length_cons, length_append, length_encode_uint32]
  omega

variable {name data rest : List UInt8} {kindCode : UInt8} {filters : StringList} {a : Args}

/-- **The constructor with data**: kind, size and name come first; the data is then copied to the position
    after the name, as a `uint32_t`. -/
theorem ofNameAndData_key (kindCode : UInt8) (data : List UInt8) (hn : name.length < 2 ^ 32) :
    (ofNameAndData kindCode name data).key =
      memcpy (keyHead kindCode name ++ List.replicate (data.length % 2 ^ 32) 0)
        ((1 + 4 + name.length) % 2 ^ 32) (data.take (data.length % 2 ^ 32)) := by
  have hsize : (ofNat name.length).toNat = name.length := by
    rw [toNat_uint32_ofNat, mod_eq_of_lt hn]
  have hpos : ((0 : UInt32) + 1 + 4 + ofNat name.length).toNat = (1 + 4 + name.length) % 2 ^ 32 := by
    rw [UInt32.toNat_add, hsize]
    rfl
  simp only [ofNameAndData, hsize, hpos, toNat_uint32_ofNat, take_length]
  congr 1
  have h₁ := memcpy_replicate [] [kindCode] (4 + (name.length + data.length % 2 ^ 32))
  have h₂ := memcpy_replicate [kindCode] (encode (ofNat name.length))
    (name.length + data.length % 2 ^ 32)
  have h₃ := memcpy_replicate (kindCode :: encode (ofNat name.length)) name (data.length % 2 ^ 32)
  have hlen : 1 + 4 + name.length + data.length % 2 ^ 32
      = [kindCode].length + (4 + (name.length + data.length % 2 ^ 32)) := by
    rw [length_singleton]
    omega
  rw [hlen]
  refine (congrArg (fun b => memcpy (memcpy b _ _) _ _) h₁).trans ?_
  refine (congrArg (fun b => memcpy b _ _) h₂).trans ?_
  refine h₃.trans ?_
  simp [keyHead]

/-- Where the position does not wrap, the data follows the name. -/
theorem ofNameAndData_layout (kindCode : UInt8) (hn : name.length < 2 ^ 32) (hd : data.length < 2 ^ 32)
    (hfits : data = [] ∨ 1 + 4 + name.length < 2 ^ 32) :
    ofNameAndData kindCode name data = { key := keyHead kindCode name ++ data } := by
  refine congrArg BuildKey.mk ((ofNameAndData_key kindCode data hn).trans ?_)
  rw [mod_eq_of_lt hd, take_length]
  rcases hfits with rfl | hfits
  · simp [memcpy]
  · rw [mod_eq_of_lt hfits, ← length_keyHead kindCode name]
    have h := memcpy_replicate (keyHead kindCode name) data 0
    simpa using h

theorem getKind_cons (kind : Kind) (rest : List UInt8) :
    getKind { key := identifierForKind kind :: rest } = kind := by
  simp [getKind, kindForIdentifier_identifierForKind]

theorem nameSize_keyHead (kindCode : UInt8) (name rest : List UInt8) :
    nameSize { key := keyHead kindCode name ++ rest } = some (UInt32.ofNat name.length) := by
  have hdrop : (keyHead kindCode name ++ rest).drop 1
      = encode (ofNat name.length) ++ (name ++ rest) := by
    simp [keyHead]
  simp only [nameSize, hdrop, run_decode, map_some]

theorem drop_keyHead_name (kindCode : UInt8) (name rest : List UInt8) :
    (keyHead kindCode name ++ rest).drop (1 + 4) = name ++ rest := by
  have hlen : (kindCode :: encode (ofNat name.length)).length = 1 + 4 := rfl
  have happend : keyHead kindCode name ++ rest
      = (kindCode :: encode (ofNat name.length)) ++ (name ++ rest) := by
    simp [keyHead]
  rw [happend, ← hlen, drop_left]

/-- The name of a key is read back. -/
theorem sizedName_keyHead (hn : name.length < 2 ^ 32) :
    sizedName { key := keyHead kindCode name ++ rest } = some name := by
  have hle : 1 + 4 + name.length ≤ (keyHead kindCode name ++ rest).length := by
    rw [length_append, length_keyHead]
    omega
  rw [sizedName, nameSize_keyHead]
  show slice _ _ (ofNat name.length).toNat = _
  rw [toNat_uint32_ofNat, mod_eq_of_lt hn, slice, if_pos hle, drop_keyHead_name, take_left]

/-- The number of bytes after the name. -/
theorem toNat_dataSize {n r : Nat} (hn : n < 2 ^ 32) (hr : r < 2 ^ 32) :
    (UInt64.ofNat (1 + 4 + n + r) - 1 - 4 - (UInt32.ofNat n).toUInt64).toUInt32.toNat = r := by
  have h₁ : (UInt64.ofNat (1 + 4 + n + r)).toNat = 1 + 4 + n + r :=
    UInt64.toNat_ofNat_of_lt' (by show _ < 2 ^ 64; omega)
  have h₂ : (ofNat n).toUInt64.toNat = n := by
    rw [toNat_toUInt64, toNat_uint32_ofNat, mod_eq_of_lt hn]
  rw [UInt64.toNat_toUInt32, UInt64.toNat_sub, UInt64.toNat_sub, UInt64.toNat_sub, h₁, h₂]
  show _ % 2 ^ 32 = r
  have : (1 : UInt64).toNat = 1 := rfl
  have : (4 : UInt64).toNat = 4 := rfl
  omega

/-- A key whose name is read back says the size of the name. -/
theorem nameSize_of_sizedName {k : BuildKey} (h : k.sizedName = some name) :
    k.nameSize = some (UInt32.ofNat name.length) ∧ name.length < 2 ^ 32 := by
  obtain ⟨size, hsize, hslice⟩ := bind_eq_some_iff.mp h
  rw [slice] at hslice
  split_ifs at hslice with hle
  have hlen : name.length = size.toNat := by
    rw [← some.inj hslice, length_take, length_drop]
    omega
  have heq : ofNat name.length = size := by
    rw [hlen]
    exact UInt32.ofNat_toNat
  exact ⟨heq ▸ hsize, hlen ▸ size.toNat_lt⟩

/-- Its data is what follows the name. -/
theorem sizedData_of_sizedName {k : BuildKey} (h : k.sizedName = some name) {r : Nat}
    (hlen : k.key.length = 1 + 4 + name.length + r) (hr : r < 2 ^ 32) :
    k.sizedData = some (k.key.drop (1 + 4 + name.length)) := by
  obtain ⟨hsize, hn⟩ := nameSize_of_sizedName h
  rw [sizedData, hsize]
  show slice _ (1 + 4 + (ofNat name.length).toNat) (UInt64.ofNat k.key.length - 1 - 4 -
    (ofNat name.length).toUInt64).toUInt32.toNat = _
  rw [hlen, toNat_dataSize hn hr, toNat_uint32_ofNat, mod_eq_of_lt hn, slice, if_pos (le_of_eq hlen.symm),
    take_of_length_le (by rw [length_drop]; omega)]

/-- The data of a key is read back. -/
theorem sizedData_keyHead (hn : name.length < 2 ^ 32) (hd : data.length < 2 ^ 32) :
    sizedData { key := keyHead kindCode name ++ data } = some data := by
  have hlen : (keyHead kindCode name ++ data).length = 1 + 4 + name.length + data.length := by
    rw [length_append, length_keyHead]
  rw [sizedData_of_sizedName (sizedName_keyHead hn) hlen hd, ← length_keyHead kindCode name, drop_left]

theorem length_encode_stringList (l : StringList) : (encode l).length = 8 + l.contents.length := by
  have h : encode l = encode l.size ++ l.contents := rfl
  rw [h, length_append, length_encode_uint64]

theorem getKind_keyHead (kind : Kind) (name rest : List UInt8) :
    getKind { key := keyHead (identifierForKind kind) name ++ rest } = kind :=
  getKind_cons kind _

/-- The path and the filters of a key are read back, whatever its kind. -/
theorem filters_recovered (kindCode : UInt8) {path : List UInt8} (hp : 1 + 4 + path.length < 2 ^ 32)
    (hf : 8 + filters.contents.length < 2 ^ 32) :
    ofNameAndData kindCode path (encode filters) = { key := keyHead kindCode path ++ encode filters } ∧
      sizedName { key := keyHead kindCode path ++ encode filters } = some path ∧
      sizedData { key := keyHead kindCode path ++ encode filters } = some (encode filters) := by
  have hpath : path.length < 2 ^ 32 := by omega
  have hdata : (encode filters).length < 2 ^ 32 := by
    rw [length_encode_stringList]
    exact hf
  exact ⟨ofNameAndData_layout kindCode hpath hdata (.inr hp), sizedName_keyHead hpath, sizedData_keyHead hpath hdata⟩

/-- **Keys that fit are read back.** -/
theorem Args.recovered_of_fits (hb : a.Bounded) (hf : a.Fits) : a.Recovered := by
  cases a with
  | command name | directoryContents name | node name | stat name | target name =>
    simp [Recovered, make, makeCommand, makeDirectoryContents, makeNode, makeStat, makeTarget, ofName,
      getCommandName, getDirectoryPath, getNodeName, getStatName, getTargetName, plainName, getKind_cons]
  | customTask name taskData =>
    have hkey := ofNameAndData_layout (identifierForKind .customTask) hb.1 hb.2 hf
    simp only [Recovered, make, makeCustomTask, hkey, getCustomTaskName, getCustomTaskData, getKind_keyHead,
      if_true]
    exact ⟨sizedName_keyHead hb.1, sizedData_keyHead hb.1 hb.2⟩
  | filteredDirectoryContents path filters =>
    obtain ⟨hkey, hname, hdata⟩ := filters_recovered (identifierForKind .filteredDirectoryContents) hf.1 hf.2
    simp [Recovered, make, makeFilteredDirectoryContents, hkey, getFilteredDirectoryPath,
      getContentExclusionPatternsAsStringList, getContentExclusionPatterns, getKind_keyHead, hname, hdata]
  | directoryTreeSignature path filters =>
    obtain ⟨hkey, hname, hdata⟩ := filters_recovered (identifierForKind .directoryTreeSignature) hf.1 hf.2
    simp [Recovered, make, makeDirectoryTreeSignature, hkey, getDirectoryTreeSignaturePath,
      getContentExclusionPatternsAsStringList, getContentExclusionPatterns, getKind_keyHead, hname, hdata]
  | directoryTreeStructureSignature path filters =>
    obtain ⟨hkey, hname, hdata⟩ :=
      filters_recovered (identifierForKind .directoryTreeStructureSignature) hf.1 hf.2
    simp [Recovered, make, makeDirectoryTreeStructureSignature, hkey, getFilteredDirectoryPath,
      getContentExclusionPatternsAsStringList, getContentExclusionPatterns, getKind_keyHead, hname, hdata]

/-! ## Keys that do not fit -/

theorem length_memcpy {buffer bytes : List UInt8} {pos : Nat} (h : pos + bytes.length ≤ buffer.length) :
    (memcpy buffer pos bytes).length = buffer.length := by
  simp only [memcpy, length_append, length_take, length_drop]
  omega

/-- Reading a number takes its bytes. -/
theorem length_of_decode_uint64 {input : List UInt8} {result : UInt64 × List UInt8}
    (h : (decode : Reader UInt64).run input = some result) : 8 ≤ input.length := by
  match input, h with
  | [], h => exact absurd (show none = some result from h) (by simp)
  | [_], h => exact absurd (show none = some result from h) (by simp)
  | [_, _], h => exact absurd (show none = some result from h) (by simp)
  | [_, _, _], h => exact absurd (show none = some result from h) (by simp)
  | [_, _, _, _], h => exact absurd (show none = some result from h) (by simp)
  | [_, _, _, _, _], h => exact absurd (show none = some result from h) (by simp)
  | [_, _, _, _, _, _], h => exact absurd (show none = some result from h) (by simp)
  | [_, _, _, _, _, _, _], h => exact absurd (show none = some result from h) (by simp)
  | _ :: _ :: _ :: _ :: _ :: _ :: _ :: _ :: rest, _ => simp

/-- The number that four bytes stand for. -/
theorem decode_uint32_cons (b₀ b₁ b₂ b₃ : UInt8) (rest : List UInt8) :
    ∃ v : UInt32, (decode : Reader UInt32).run (b₀ :: b₁ :: b₂ :: b₃ :: rest) = some (v, rest) ∧
      v.toNat = b₀.toNat + 2 ^ 8 * b₁.toNat + 2 ^ 16 * (b₂.toNat + 2 ^ 8 * b₃.toNat) := by
  refine ⟨_, rfl, ?_⟩
  have hlow := toNat_join (n := 8) b₀.toBitVec b₁.toBitVec
  have hhigh := toNat_join (n := 8) b₂.toBitVec b₃.toBitVec
  have hjoin := toNat_join (n := 16) (b₀.toUInt16 ||| b₁.toUInt16 <<< 8).toBitVec
    (b₂.toUInt16 ||| b₃.toUInt16 <<< 8).toBitVec
  refine hjoin.trans ?_
  rw [show (b₀.toUInt16 ||| b₁.toUInt16 <<< 8).toBitVec.toNat = b₀.toNat + 2 ^ 8 * b₁.toNat from hlow,
    show (b₂.toUInt16 ||| b₃.toUInt16 <<< 8).toBitVec.toNat = b₂.toNat + 2 ^ 8 * b₃.toNat from hhigh]

/-- A size that makes the position wrap has no zero byte. -/
theorem kind_eq_zero_of_wrapped {b b₀ b₁ b₂ b₃ : UInt8} {p : Nat}
    (hat : (b :: b₀ :: b₁ :: b₂ :: b₃ :: rest)[p]? = some 0) (hp : p < 5)
    (hwrap : 2 ^ 32 ≤ 5 + (b₀.toNat + 2 ^ 8 * b₁.toNat + 2 ^ 16 * (b₂.toNat + 2 ^ 8 * b₃.toNat))) :
    b = 0 := by
  have h₀ := b₀.toNat_lt
  have h₁ := b₁.toNat_lt
  have h₂ := b₂.toNat_lt
  have h₃ := b₃.toNat_lt
  have hzero : ∀ c : UInt8, c = 0 → c.toNat = 0 := by
    rintro c rfl
    rfl
  match p, hp with
  | 0, _ => simpa using hat
  | 1, _ =>
    have := hzero b₀ (by simpa using hat)
    omega
  | 2, _ =>
    have := hzero b₁ (by simpa using hat)
    omega
  | 3, _ =>
    have := hzero b₂ (by simpa using hat)
    omega
  | 4, _ =>
    have := hzero b₃ (by simpa using hat)
    omega

/-- **Where the position wraps**, the data is written over kind and size. If the key still says the right
    kind and name, the data does not start with a zero, and the place after the name is empty. -/
theorem data_of_wrapped {x : UInt8} (hn : name.length < 2 ^ 32) (hwrap : 2 ^ 32 ≤ 1 + 4 + name.length)
    (hd : (x :: data).length < 2 ^ 32) (hkind : (ofNameAndData kindCode name (x :: data)).getKind ≠ .unknown)
    (hname : (ofNameAndData kindCode name (x :: data)).sizedName = some name) :
    x ≠ 0 ∧ (ofNameAndData kindCode name (x :: data)).sizedData =
      some (List.replicate (x :: data).length 0) := by
  have hkey := ofNameAndData_key kindCode (x :: data) hn
  rw [mod_eq_of_lt hd, take_length] at hkey
  set k := ofNameAndData kindCode name (x :: data) with hk
  set buffer := keyHead kindCode name ++ List.replicate (x :: data).length 0 with hbuffer
  set p := (1 + 4 + name.length) % 2 ^ 32 with hp
  have hp' : p + 2 ^ 32 = 1 + 4 + name.length := by omega
  have hblen : buffer.length = 1 + 4 + name.length + (x :: data).length := by
    rw [hbuffer, length_append, length_keyHead, length_replicate]
  have hlen : k.key.length = 1 + 4 + name.length + (x :: data).length := by
    rw [hkey, length_memcpy (by omega), hblen]
  -- the first byte of the data stands at position `p` of the key
  have hat : k.key[p]? = some x := by
    have htake : (buffer.take p).length = p := by
      rw [length_take]
      omega
    rw [hkey, memcpy, List.getElem?_append_right (le_of_eq htake), htake, Nat.sub_self]
    rfl
  -- nothing is written after the name
  have htail : k.key.drop (1 + 4 + name.length) = List.replicate (x :: data).length 0 := by
    have htake : (buffer.take p).length = p := by
      rw [length_take]
      omega
    have hdrop : k.key.drop (1 + 4 + name.length) = buffer.drop (1 + 4 + name.length) := by
      rw [hkey, memcpy, drop_append, drop_of_length_le (by omega), nil_append,
        drop_append, drop_of_length_le (by omega), nil_append, drop_drop, htake]
      congr 1
      omega
    rw [hdrop, hbuffer, ← length_keyHead kindCode name, drop_left]
  refine ⟨?_, by rw [sizedData_of_sizedName hname hlen hd, htail]⟩
  rintro rfl
  -- position `p` holds the kind or a byte of the size, and none of these is zero
  obtain ⟨hsize, -⟩ := nameSize_of_sizedName hname
  obtain ⟨b, hb⟩ : ∃ b, k.key = b :: k.key.drop 1 := by
    cases hk' : k.key with
    | nil => rw [hk', length_nil] at hlen; omega
    | cons b rest => exact ⟨b, rfl⟩
  obtain ⟨b₀, b₁, b₂, b₃, rest, hrest⟩ : ∃ b₀ b₁ b₂ b₃ rest, k.key.drop 1 = b₀ :: b₁ :: b₂ :: b₃ :: rest := by
    have hlen' : 4 ≤ (k.key.drop 1).length := by
      rw [length_drop]
      omega
    match hk' : k.key.drop 1, hlen' with
    | b₀ :: b₁ :: b₂ :: b₃ :: rest, _ => exact ⟨b₀, b₁, b₂, b₃, rest, rfl⟩
  obtain ⟨v, hv, hvalue⟩ := decode_uint32_cons b₀ b₁ b₂ b₃ rest
  have hvn : v.toNat = name.length := by
    have : some v = some (ofNat name.length) := by
      rw [← hsize, nameSize, hrest, hv]
      rfl
    rw [some.inj this, toNat_uint32_ofNat, mod_eq_of_lt hn]
  rw [hb, hrest] at hat
  have hzero := kind_eq_zero_of_wrapped hat (by omega) (by omega)
  refine hkind ?_
  rw [getKind, hb, hzero]
  show kindForIdentifier 0 = .unknown
  decide

/-- A list of zeros is read as the empty string list. -/
theorem decode_stringList_zeros {n : Nat}
    (h : (decode : Reader StringList).run (List.replicate (8 + n) 0) = some (filters, rest)) :
    filters.contents = [] := by
  have hzeros : List.replicate (8 + n) 0 = encode ({} : StringList) ++ List.replicate n 0 := by
    rw [replicate_add]
    rfl
  rw [hzeros, run_decode] at h
  rw [← (Prod.mk.inj (some.inj h)).1]

/-- A key with filters that is read back fits. -/
theorem filters_fit {path : List UInt8} {patterns : List UInt8} (hp : path.length < 2 ^ 32)
    (hf : filters.contents.length < 2 ^ 32)
    (hkind : (ofNameAndData kindCode path (encode filters)).getKind ≠ .unknown)
    (hname : (ofNameAndData kindCode path (encode filters)).sizedName = some path)
    (hdata : (ofNameAndData kindCode path (encode filters)).sizedData = some patterns)
    (hread : (decode : Reader StringList).run patterns = some (filters, rest)) :
    1 + 4 + path.length < 2 ^ 32 ∧ 8 + filters.contents.length < 2 ^ 32 := by
  have hlen := length_encode_stringList filters
  have hfits : 8 + filters.contents.length < 2 ^ 32 := by
    by_contra hlong
    -- the size of the data wraps, and what is left is too short for the size of a list
    have hkey := ofNameAndData_key kindCode (encode filters) hp
    have hmod : (encode filters).length % 2 ^ 32 < 8 := by omega
    have hklen : (ofNameAndData kindCode path (encode filters)).key.length
        = 1 + 4 + path.length + (encode filters).length % 2 ^ 32 := by
      have hle : (1 + 4 + path.length) % 2 ^ 32 ≤ 1 + 4 + path.length := mod_le _ _
      rw [hkey, length_memcpy]
      · rw [length_append, length_keyHead, length_replicate]
      · rw [length_append, length_keyHead, length_replicate, length_take]
        omega
    rw [sizedData_of_sizedName hname hklen (by omega)] at hdata
    have hshort : patterns.length < 8 := by
      rw [← some.inj hdata, length_drop, hklen]
      omega
    obtain ⟨⟨size, rest'⟩, hsize, -⟩ := bind_eq_some_iff.mp hread
    have := length_of_decode_uint64 hsize
    omega
  refine ⟨?_, hfits⟩
  by_contra hwrap
  cases hbytes : encode filters with
  | nil => rw [hbytes, length_nil] at hlen; omega
  | cons x data =>
    rw [hbytes] at hkind hname hdata hlen
    obtain ⟨hx, hzeros⟩ := data_of_wrapped hp (by omega) (by omega) hkind hname
    rw [hzeros, hlen] at hdata
    rw [← some.inj hdata] at hread
    -- so the filters are empty, and the data starts with a zero
    have hempty : filters = {} := StringList.ext (decode_stringList_zeros hread)
    rw [hempty] at hbytes
    exact hx (List.cons.inj hbytes).1.symm

/-- A key with data that is read back fits. -/
theorem custom_fits {taskData : List UInt8} (hn : name.length < 2 ^ 32) (hd : taskData.length < 2 ^ 32)
    (hkind : (ofNameAndData kindCode name taskData).getKind ≠ .unknown)
    (hname : (ofNameAndData kindCode name taskData).sizedName = some name)
    (hdata : (ofNameAndData kindCode name taskData).sizedData = some taskData) :
    taskData = [] ∨ 1 + 4 + name.length < 2 ^ 32 := by
  by_contra hfits
  obtain ⟨hne, hwrap⟩ := not_or.mp hfits
  cases taskData with
  | nil => exact hne rfl
  | cons x data =>
    obtain ⟨hx, hzeros⟩ := data_of_wrapped hn (not_lt.mp hwrap) hd hkind hname
    rw [hzeros] at hdata
    exact hx (List.cons.inj (some.inj hdata)).1.symm

/-- The patterns of a key that has some. -/
theorem patterns_of_recovered {k : BuildKey} (h : k.getContentExclusionPatternsAsStringList = some filters) :
    ∃ patterns rest, k.sizedData = some patterns ∧
      (decode : Reader StringList).run patterns = some (filters, rest) := by
  obtain ⟨patterns, hpatterns, hread⟩ := bind_eq_some_iff.mp h
  obtain ⟨⟨filters', rest⟩, hrun, rfl⟩ := map_eq_some_iff.mp hread
  rw [getContentExclusionPatterns] at hpatterns
  split_ifs at hpatterns
  exact ⟨patterns, rest, hpatterns, hrun⟩

/-- **Keys that are read back fit.** -/
theorem Args.fits_of_recovered (hb : a.Bounded) (h : a.Recovered) : a.Fits := by
  cases a with
  | command name | directoryContents name | node name | stat name | target name => trivial
  | customTask name taskData =>
    obtain ⟨hname, hdata⟩ := h
    rw [getCustomTaskName] at hname
    split_ifs at hname with hkind
    rw [getCustomTaskData, if_pos hkind] at hdata
    exact custom_fits hb.1 hb.2 (fun hu => absurd (hkind.symm.trans hu) (by decide)) hname hdata
  | filteredDirectoryContents path filters | directoryTreeStructureSignature path filters =>
    obtain ⟨hname, hfilters⟩ := h
    obtain ⟨patterns, rest, hdata, hread⟩ := patterns_of_recovered hfilters
    simp only [getFilteredDirectoryPath] at hname
    split_ifs at hname with hkind
    refine filters_fit hb.1 hb.2 ?_ hname hdata hread
    rcases hkind with hkind | hkind <;> exact fun hu => absurd (hkind.symm.trans hu) (by decide)
  | directoryTreeSignature path filters =>
    obtain ⟨hname, hfilters⟩ := h
    obtain ⟨patterns, rest, hdata, hread⟩ := patterns_of_recovered hfilters
    simp only [getDirectoryTreeSignaturePath] at hname
    split_ifs at hname with hkind
    exact filters_fit hb.1 hb.2 (fun hu => absurd (hkind.symm.trans hu) (by decide)) hname hdata hread

/-! ## Keys are told apart -/

/-- Read the arguments back from a key. -/
def Args.read (k : BuildKey) : Option Args :=
  match k.getKind with
  | .command => k.getCommandName.map Args.command
  | .customTask => do return .customTask (← k.getCustomTaskName) (← k.getCustomTaskData)
  | .directoryContents => k.getDirectoryPath.map Args.directoryContents
  | .filteredDirectoryContents => do
    return .filteredDirectoryContents (← k.getFilteredDirectoryPath)
      (← k.getContentExclusionPatternsAsStringList)
  | .directoryTreeSignature => do
    return .directoryTreeSignature (← k.getDirectoryTreeSignaturePath)
      (← k.getContentExclusionPatternsAsStringList)
  | .directoryTreeStructureSignature => do
    return .directoryTreeStructureSignature (← k.getFilteredDirectoryPath)
      (← k.getContentExclusionPatternsAsStringList)
  | .node => k.getNodeName.map Args.node
  | .stat => k.getStatName.map Args.stat
  | .target => k.getTargetName.map Args.target
  | .unknown => none

/-- The kind of arguments. -/
def Args.kind : Args → Kind
  | command _ => .command
  | customTask _ _ => .customTask
  | directoryContents _ => .directoryContents
  | filteredDirectoryContents _ _ => .filteredDirectoryContents
  | directoryTreeSignature _ _ => .directoryTreeSignature
  | directoryTreeStructureSignature _ _ => .directoryTreeStructureSignature
  | node _ => .node
  | stat _ => .stat
  | target _ => .target

/-- A key that fits starts with the letter of its kind. -/
theorem Args.getKind_make (hb : a.Bounded) (hf : a.Fits) : a.make.getKind = a.kind := by
  cases a with
  | command name | directoryContents name | node name | stat name | target name => exact getKind_cons _ _
  | customTask name taskData =>
    simp only [make, makeCustomTask, ofNameAndData_layout _ hb.1 hb.2 hf]
    exact getKind_keyHead _ _ _
  | filteredDirectoryContents path filters | directoryTreeSignature path filters
  | directoryTreeStructureSignature path filters =>
    simp only [make, makeFilteredDirectoryContents, makeDirectoryTreeSignature,
      makeDirectoryTreeStructureSignature, (filters_recovered _ hf.1 hf.2).1]
    exact getKind_keyHead _ _ _

/-- What is read back from a key that fits is what it was made from. -/
theorem Args.read_make (hb : a.Bounded) (hf : a.Fits) : read a.make = some a := by
  have hkind := getKind_make hb hf
  have hrec := recovered_of_fits hb hf
  rw [read, hkind]
  cases a with
  | command name | directoryContents name | node name | stat name | target name =>
    have hrec' : _ = some name := hrec
    simp [kind, hrec']
  | customTask name taskData | filteredDirectoryContents path filters | directoryTreeSignature path filters
  | directoryTreeStructureSignature path filters =>
    obtain ⟨hname, hdata⟩ := hrec
    simp [kind, hname, hdata]

/-- **Coding of build keys.** For arguments shorter than `2 ^ 32` bytes: both keys are read back, and they are
    told apart, exactly when both fit. -/
theorem buildKey_coding {a b : Args} (ha : a.Bounded) (hb : b.Bounded) :
    a.Recovered ∧ b.Recovered ∧ (a.make.key = b.make.key → a = b) ↔ a.Fits ∧ b.Fits := by
  constructor
  · rintro ⟨hra, hrb, -⟩
    exact ⟨Args.fits_of_recovered ha hra, Args.fits_of_recovered hb hrb⟩
  · rintro ⟨hfa, hfb⟩
    refine ⟨Args.recovered_of_fits ha hfa, Args.recovered_of_fits hb hfb, fun heq => ?_⟩
    have hmake : a.make = b.make := congrArg BuildKey.mk heq
    have hread := Args.read_make ha hfa
    rw [hmake, Args.read_make hb hfb] at hread
    exact (some.inj hread).symm

theorem buildKey_coding_task :
    (Args.customTask [97] [98]).Recovered ∧
      (makeCustomTask [97] [98]).key ≠ (makeCustomTask [] [97, 98]).key := by
  obtain ⟨hrec, -, hinj⟩ := (buildKey_coding (a := .customTask [97] [98]) (b := .customTask [] [97, 98])
    (show _ ∧ _ by decide) (show _ ∧ _ by decide)).mpr
    ⟨show _ ∨ _ by decide, show _ ∨ _ by decide⟩
  exact ⟨hrec, fun heq => absurd (hinj heq) (by simp)⟩

/-- A custom task whose name ends where the position wraps, with one byte of data. -/
def wrappedTask : Args := .customTask (List.replicate (2 ^ 32 - 5) 97) [98]

/-- The byte of data replaces the letter of the kind. -/
theorem wrappedTask_not_recovered : wrappedTask.Bounded ∧ ¬ wrappedTask.Recovered := by
  have hb : wrappedTask.Bounded := by
    refine ⟨?_, by decide⟩
    rw [length_replicate]
    omega
  refine ⟨hb, fun hrec => ?_⟩
  rcases Args.fits_of_recovered hb hrec with h | h
  · exact absurd h (by simp)
  · rw [length_replicate] at h
    omega

end BuildKey

end Builra
