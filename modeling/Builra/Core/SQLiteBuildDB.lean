import Builra.Basic.BinaryCoding

namespace Builra

/-!
# `Core.SQLiteBuildDB` — the build database and its key caches

The tables of `SQLiteBuildDB.cpp`, the statements run on them, and the database object with its two caches
and the key table of its delegate. SQLite is taken at its word: a statement does what it says, a column is
returned as it was stored, and a new row gets one more than the largest row id.

A `KeyID` is here what it is in the source, the identity of an interned key of one engine: the `n`-th key
interned is number `n`. Several engines use one database file through an object each, with its own caches.
-/

open Codec

namespace SQLiteBuildDB

/-- The identity of a key in the key table of one engine. -/
abbrev KeyID := Nat

/-- The identity of a key in the database: the row id in `key_names`. -/
abbrev DBKeyID := Nat

/-- `KeyIDAndFlags`, over any kind of key. -/
structure KeyIDAndFlags (K : Type) where
  keyID : K
  orderOnly : Bool := false
  singleUse : Bool := false
deriving DecidableEq

/-- `core::Result`, over any kind of key; a time is the bits of a `double`. -/
structure StoredResult (K : Type) where
  value : ValueType := []
  signature : CommandSignature := 0
  computedAt : UInt64 := 0
  builtAt : UInt64 := 0
  startTime : UInt64 := 0
  endTime : UInt64 := 0
  dependencies : List (KeyIDAndFlags K) := []
deriving DecidableEq

/-- The same result for other keys. -/
def StoredResult.map {K L : Type} (f : K → L) (r : StoredResult K) : StoredResult L :=
  { value := r.value
    signature := r.signature
    computedAt := r.computedAt
    builtAt := r.builtAt
    startTime := r.startTime
    endTime := r.endTime
    dependencies := r.dependencies.map (fun d => ⟨f d.keyID, d.orderOnly, d.singleUse⟩) }

/-! ## The tables -/

/-- A row of `key_names`. -/
structure KeyName where
  id : DBKeyID
  key : KeyType
deriving DecidableEq

/-- A row of `rule_results`. -/
structure RuleResult where
  keyID : DBKeyID
  value : List UInt8
  signature : Int64
  builtAt : Int64
  computedAt : Int64
  startTime : UInt64
  endTime : UInt64
  dependencies : List UInt8
deriving DecidableEq

structure Tables where
  keyNames : List KeyName := []
  ruleResults : List RuleResult := []
deriving DecidableEq

namespace Tables

variable (t : Tables)

variable (key : KeyType)

/-- `findKeyIDForKeyStmtSQL`. -/
def findKeyIDForKey : Option DBKeyID :=
  (t.keyNames.find? (fun row => row.key = key)).map (fun row => row.id)

/-- `findKeyNameForKeyIDStmtSQL`. -/
def findKeyNameForKeyID (id : DBKeyID) : Option KeyType :=
  (t.keyNames.find? (fun row => row.id = id)).map (fun row => row.key)

/-- The row id a new row of `key_names` gets. -/
def nextRowID : DBKeyID := (t.keyNames.map (fun row => row.id)).foldl max 0 + 1

/-- `insertIntoKeysStmtSQL` for a key that is not there, and `sqlite3_last_insert_rowid` after it. -/
def insertIntoKeys : DBKeyID × Tables :=
  (t.nextRowID, { t with keyNames := t.keyNames ++ [⟨t.nextRowID, key⟩] })

/-- `rule_results JOIN key_names` on the key id. -/
def join : List (RuleResult × KeyName) :=
  t.ruleResults.flatMap (fun row =>
    (t.keyNames.filter (fun name => name.id = row.keyID)).map (fun name => (row, name)))

/-- `findRuleResultStmtSQL`. -/
def findRuleResult : Option RuleResult :=
  (t.join.find? (fun entry => entry.2.key = key)).map Prod.fst

/-- `fastFindRuleResultStmtSQL`. -/
def fastFindRuleResult (id : DBKeyID) : Option RuleResult :=
  t.ruleResults.find? (fun row => row.keyID = id)

/-- `insertIntoRuleResultsStmtSQL`: insert or replace by the primary key. -/
def insertIntoRuleResults (row : RuleResult) : Tables :=
  { t with ruleResults := t.ruleResults.filter (fun old => old.keyID ≠ row.keyID) ++ [row] }

end Tables

/-! ## The database object -/

/-- What `error_out` can report when SQLite itself does not fail. -/
inductive DBError where
  /-- `getCurrentErrorMessage()`, for a key id that is not in `key_names`. -/
  | noSuchKey
  /-- `"unexpected contents for database result: <id>"`. -/
  | unexpectedContents (id : DBKeyID)
deriving DecidableEq

/-- A `SQLiteBuildDB` with the `keyTable` of its delegate. -/
structure DB where
  keyTable : List KeyType := []
  engineKeyIDs : DBKeyID → Option KeyID := fun _ => none
  dbKeyIDs : KeyID → Option DBKeyID := fun _ => none

namespace DB

local instance : LawfulBEq KeyType := inferInstance

/-- `BuildDBDelegate::getKeyID`: intern the key. -/
def internKey (s : DB) (key : KeyType) : KeyID × DB :=
  (s.keyTable.idxOf key, if key ∈ s.keyTable then s else { s with keyTable := s.keyTable ++ [key] })

/-- `BuildDBDelegate::getKeyForID`. -/
def getKeyForID (s : DB) (keyID : KeyID) : KeyType := s.keyTable.getD keyID []

/-- `engineKeyIDs[dbKeyID] = keyID; dbKeyIDs[keyID] = dbKeyID;`. -/
def cacheMapping (s : DB) (dbKeyID : DBKeyID) (keyID : KeyID) : DB :=
  { s with
    engineKeyIDs := Function.update s.engineKeyIDs dbKeyID (some keyID)
    dbKeyIDs := Function.update s.dbKeyIDs keyID (some dbKeyID) }

/-- `getKeyIDFromDB`. -/
def getKeyIDFromDB (t : Tables) (s : DB) (keyID : KeyID) : DBKeyID × Tables :=
  let key := s.getKeyForID keyID
  match t.findKeyIDForKey key with
  | some id => (id, t)
  | none => t.insertIntoKeys key

/-- `getKeyID`. -/
def getKeyID (t : Tables) (s : DB) (keyID : KeyID) : DBKeyID × Tables × DB :=
  match s.dbKeyIDs keyID with
  | some id => (id, t, s)
  | none =>
    let found := s.getKeyIDFromDB t keyID
    (found.1, found.2, if found.1 ≠ 0 then s.cacheMapping found.1 keyID else s)

/-- `getKeyIDForID`. -/
def getKeyIDForID (t : Tables) (s : DB) (dbKeyID : DBKeyID) : Except DBError KeyID × DB :=
  match s.engineKeyIDs dbKeyID with
  | some keyID => (.ok keyID, s)
  | none =>
    match t.findKeyNameForKeyID dbKeyID with
    | none => (.error .noSuchKey, s)
    | some key =>
      let interned := s.internKey key
      (.ok interned.1, interned.2.cacheMapping dbKeyID interned.1)

/-! ### Writing -/

/-- `(dbKeyID.value << 2) + (dependency.singleUse << 1) + dependency.orderOnly`. -/
def packDependency (dbKeyID : DBKeyID) (orderOnly singleUse : Bool) : UInt64 :=
  (UInt64.ofNat dbKeyID <<< 2) + (singleUse.toUInt64 <<< 1) + orderOnly.toUInt64

/-- The loop of `setRuleResult` over the dependencies. -/
def writeDependencies (t : Tables) (s : DB) : List (KeyIDAndFlags KeyID) → List UInt8 × Tables × DB
  | [] => ([], t, s)
  | d :: dependencies =>
    let found := s.getKeyID t d.keyID
    let written := writeDependencies found.2.1 found.2.2 dependencies
    (encode (packDependency found.1 d.orderOnly d.singleUse) ++ written.1, written.2)

/-- `setRuleResult`. -/
def setRuleResult (t : Tables) (s : DB) (keyID : KeyID) (ruleResult : StoredResult KeyID) : Tables × DB :=
  let found := s.getKeyID t keyID
  let written := found.2.2.writeDependencies found.2.1 ruleResult.dependencies
  (written.2.1.insertIntoRuleResults
    { keyID := found.1
      value := ruleResult.value
      signature := ruleResult.signature.toInt64
      builtAt := ruleResult.builtAt.toInt64
      computedAt := ruleResult.computedAt.toInt64
      startTime := ruleResult.startTime
      endTime := ruleResult.endTime
      dependencies := written.1 }, written.2.2)

/-! ### Reading -/

/-- The loop over the stored dependencies of the row of `id`. -/
def readDependencies (t : Tables) (id : DBKeyID) (s : DB) :
    Nat → List UInt8 → Except DBError (List (KeyIDAndFlags KeyID)) × DB
  | 0, _ => (.ok [], s)
  | count + 1, bytes =>
    match (decode : Reader UInt64).run bytes with
    | none => (.error (.unexpectedContents id), s)
    | some (raw, rest) =>
      match s.getKeyIDForID t (raw >>> 2).toNat with
      | (.error error, s) => (.error error, s)
      | (.ok keyID, s) =>
        match readDependencies t id s count rest with
        | (.error error, s) => (.error error, s)
        | (.ok dependencies, s) =>
          (.ok (⟨keyID, raw &&& 1 ≠ 0, (raw >>> 1) &&& 1 ≠ 0⟩ :: dependencies), s)

/-- The contents of a row, as both paths of `lookupRuleResult` and `getKeysWithResult` read them. -/
def readRow (t : Tables) (s : DB) (row : RuleResult) : Except DBError (StoredResult KeyID) × DB :=
  let numDependencies := row.dependencies.length / 8
  if row.dependencies.length ≠ numDependencies * 8 then (.error (.unexpectedContents row.keyID), s)
  else
    match readDependencies t row.keyID s numDependencies row.dependencies with
    | (.error error, s) => (.error error, s)
    | (.ok dependencies, s) =>
      (.ok
        { value := row.value
          signature := row.signature.toUInt64
          builtAt := row.builtAt.toUInt64
          computedAt := row.computedAt.toUInt64
          startTime := row.startTime
          endTime := row.endTime
          dependencies := dependencies }, s)

/-- The first half of `lookupRuleResult`: the row is found by a cached key id, or else by a join, and then
    the id is cached. -/
def findRow (t : Tables) (s : DB) (keyID : KeyID) (key : KeyType) : Option (RuleResult × DB) :=
  match s.dbKeyIDs keyID with
  | some id => (t.fastFindRuleResult id).map (fun row => (row, s))
  | none => (t.findRuleResult key).map (fun row => (row, s.cacheMapping row.keyID keyID))

/-- `lookupRuleResult`. -/
def lookupRuleResult (t : Tables) (s : DB) (keyID : KeyID) (key : KeyType) :
    Except DBError (Option (StoredResult KeyID)) × DB :=
  match s.findRow t keyID key with
  | none => (.ok none, s)
  | some (row, s) =>
    match s.readRow t row with
    | (.error error, s) => (.error error, s)
    | (.ok result, s) => (.ok (some result), s)

/-- The loop of `getKeysWithResult` over the rows of the join. -/
def readKeysWithResult (t : Tables) (s : DB) :
    List (RuleResult × KeyName) → Except DBError (List (KeyType × StoredResult KeyID)) × DB
  | [] => (.ok [], s)
  | (row, name) :: rows =>
    let interned := s.internKey name.key
    match (interned.2.cacheMapping row.keyID interned.1).readRow t row with
    | (.error error, s) => (.error error, s)
    | (.ok result, s) =>
      match readKeysWithResult t s rows with
      | (.error error, s) => (.error error, s)
      | (.ok results, s) => (.ok ((name.key, result) :: results), s)

/-- `getKeysWithResult`; `keys_out` and `results_out` are given as one list of pairs. -/
def getKeysWithResult (t : Tables) (s : DB) :
    Except DBError (List (KeyType × StoredResult KeyID)) × DB :=
  s.readKeysWithResult t t.join

/-- A result with the keys its key ids stand for. -/
def resolve (s : DB) (r : StoredResult KeyID) : StoredResult KeyType := r.map s.getKeyForID

end DB

/-! ## Several engines on one database -/

/-- The database file and the database objects of any number of engines. -/
structure World where
  tables : Tables := {}
  dbs : Nat → DB := fun _ => {}

/-- The calls, by the engine that makes them; an engine also interns keys of its own accord. -/
inductive Op where
  | getKeyID (engine : Nat) (key : KeyType)
  | setRuleResult (engine : Nat) (keyID : KeyID) (result : StoredResult KeyID)
  | lookupRuleResult (engine : Nat) (keyID : KeyID) (key : KeyType)
  | getKeysWithResult (engine : Nat)

namespace World

def setDB (w : World) (engine : Nat) (s : DB) : World := { w with dbs := Function.update w.dbs engine s }

def step (w : World) : Op → World
  | .getKeyID engine key => w.setDB engine ((w.dbs engine).internKey key).2
  | .setRuleResult engine keyID result =>
    let after := (w.dbs engine).setRuleResult w.tables keyID result
    { w.setDB engine after.2 with tables := after.1 }
  | .lookupRuleResult engine keyID key =>
    w.setDB engine ((w.dbs engine).lookupRuleResult w.tables keyID key).2
  | .getKeysWithResult engine => w.setDB engine ((w.dbs engine).getKeysWithResult w.tables).2

def run (w : World) (ops : List Op) : World := ops.foldl step w

/-- Key ids come from the key table of the engine that uses them. -/
def Valid (w : World) : Op → Prop
  | .getKeyID _ _ => True
  | .setRuleResult engine keyID result =>
    keyID < (w.dbs engine).keyTable.length ∧
      ∀ d ∈ result.dependencies, d.keyID < (w.dbs engine).keyTable.length
  | .lookupRuleResult engine keyID key => (w.dbs engine).keyTable[keyID]? = some key
  | .getKeysWithResult _ => True

def ValidRun (w : World) : List Op → Prop
  | [] => True
  | op :: ops => w.Valid op ∧ (w.step op).ValidRun ops

end World

/-- What the database is for: the last result set for each key. -/
abbrev Store := KeyType → Option (StoredResult KeyType)

/-- A call seen as an operation on the last results. -/
def Store.step (w : World) (store : Store) : Op → Store
  | .setRuleResult engine keyID result =>
    Function.update store ((w.dbs engine).getKeyForID keyID) (some ((w.dbs engine).resolve result))
  | _ => store

/-- The last results after a run. -/
def Store.run (w : World) (store : Store) : List Op → Store
  | [] => store
  | op :: ops => Store.run (w.step op) (store.step w op) ops

end SQLiteBuildDB

end Builra
