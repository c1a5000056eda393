import Builra.BuildSystem.BuildValue
import Builra.Lib.Subpath

namespace Builra

open List

/-!
# `BuildSystem.StaleFileRemoval` — which files the stale file removal command deletes

`StaleFileRemovalCommand` over any sequence of calls. The list of files to delete is computed once for each
object, by the first call of `execute` or `getVerboseDescription` that needs it, and no build resets it. A second
account of the calls (`History`) says from which prior value that was; `execute_removes_iff` compares it with the
prior value that `execute` was given.

Assertions are taken as in a release build, where asking a value for a list that it does not have gives an empty
list. The path separator is the one of systems other than Windows.
-/

open Subpath BuildValue

namespace StaleFileRemoval

abbrev Path := List UInt8

def slash : UInt8 := '/'.toUInt8

/-- The bytes of a literal of the source. -/
def ascii (s : String) : Path := s.toList.map Char.toUInt8

/-- `StaleFileRemovalCommand` as it is configured. -/
structure StaleFileRemovalCommand where
  description : Path := []
  expectedOutputs : List Path
  roots : List Path := []
  /-- The outputs can be stored in a `StringList`. -/
  stored : (StringList.pack expectedOutputs).length < 2 ^ 64

/-- The fields that calls change. -/
structure State where
  filesToDelete : List Path := []
  computedFilesToDelete : Bool := false
  priorValue : BuildValue := makeInvalid
  hasPriorResult : Bool := false

/-- `BuildValue::getStaleFileList`. -/
def getStaleFileList (value : BuildValue) : List Path := value.stringValues.getValues.getD []

def isStaleFileRemoval (value : BuildValue) : Bool := value.kind = .staleFileRemoval

/-! ## The functions of the command -/

/-- `std::mismatch`: what is left of both paths after their common start. -/
def mismatch : Path → Path → Path × Path
  | a :: as, b :: bs => if a = b then mismatch as bs else (a :: as, b :: bs)
  | as, bs => (as, bs)

/-- `pathIsPrefixedByPath`. -/
def pathIsPrefixedByPath (path prefixPath : Path) : Bool :=
  if prefixPath.length > path.length then
    prefixPath.dropLast = path ∧ prefixPath.getLast? = some slash
  else
    let rest := mismatch prefixPath path
    (rest.1 = [] ∨ rest.1.head? = some slash) ∧ (rest.2 = [] ∨ rest.2.head? = some slash)

namespace StaleFileRemovalCommand

variable (command : StaleFileRemovalCommand)

local instance : LawfulBEq Path := inferInstance

/-- The sets of prior and expected nodes are ordered, and so is their difference. -/
def staleFiles (priorValueList : List Path) : List Path :=
  (priorValueList.dedup.mergeSort fun a b => decide (a ≤ b)).filter fun path => path ∉ command.expectedOutputs

variable (state : State)

def computeFilesToDelete : State :=
  if state.computedFilesToDelete then state
  else
    { state with
      filesToDelete := state.filesToDelete ++ command.staleFiles (getStaleFileList state.priorValue)
      computedFilesToDelete := true }

def getShortDescription : Path :=
  if command.description = [] then ascii "Stale file removal" else command.description

/-- The loop of the description: no comma after the items that equal the last one. -/
def commaSeparated (items : List Path) : Path :=
  items.flatMap fun item => item ++ if some item ≠ items.getLast? then ascii ", " else []

def getVerboseDescription : Path × State :=
  let state := command.computeFilesToDelete state
  (command.getShortDescription ++ ascii ", stale files: [" ++ commaSeparated state.filesToDelete
      ++ ascii "], roots: [" ++ commaSeparated command.roots ++ ascii "]",
    state)

/-- `providePriorValue`; the value is copied through its data. -/
def providePriorValue (value : BuildValue) : State :=
  { state with hasPriorResult := true, priorValue := value }

/-- What `FileSystem::remove` does to a path. -/
inductive RemoveResult where
  | removed
  | missing
  | error (text : Path)

/-- What `execute` does to its surroundings. -/
inductive Action where
  | commandStarted
  | commandHadWarning (text : Path)
  | commandHadNote (text : Path)
  | remove (path : Path)
  | commandFinished
deriving DecidableEq

variable (fileSystem : Path → RemoveResult)

/-- The loop body of `execute`. -/
def deleteFile (fileToDelete : Path) : List Action :=
  if command.roots ≠ [] ∧ fileToDelete.head? ≠ some slash then
    [.commandHadWarning (ascii "Stale file '" ++ fileToDelete ++
      ascii "' has a relative path. This is invalid in combination with the root path attribute.\n")]
  else if command.roots = [] ∨ command.roots.any (pathIsPrefixedByPath fileToDelete) = true then
    .remove fileToDelete ::
      match fileSystem fileToDelete with
      | .removed => [.commandHadNote (ascii "Removed stale file '" ++ fileToDelete ++ ascii "'\n")]
      | .missing => []
      | .error text =>
        [.commandHadWarning (ascii "cannot remove stale file '" ++ fileToDelete ++ ascii "': " ++ text
          ++ ascii "\n")]
  else
    [.commandHadWarning (ascii "Stale file '" ++ fileToDelete ++
      ascii "' is located outside of the allowed root paths.\n")]

/-- `execute`: its actions, the recorded value and the state after it. -/
def execute (state : State) : List Action × BuildValue × State :=
  let value := makeStaleFileRemoval (.ofValues command.expectedOutputs command.stored)
  if !state.hasPriorResult || !isStaleFileRemoval state.priorValue then
    ([.commandStarted, .commandFinished], value, state)
  else
    let state := command.computeFilesToDelete state
    (.commandStarted :: state.filesToDelete.flatMap (command.deleteFile fileSystem) ++ [.commandFinished], value,
      state)

end StaleFileRemovalCommand

/-! ## Runs -/

/-- A call to the command. -/
inductive Call where
  | getVerboseDescription
  | providePriorValue (value : BuildValue)
  | execute (fileSystem : Path → StaleFileRemovalCommand.RemoveResult)

namespace StaleFileRemovalCommand

variable (command : StaleFileRemovalCommand)

def call (state : State) : Call → State
  | .getVerboseDescription => (command.getVerboseDescription state).2
  | .providePriorValue value => providePriorValue state value
  | .execute fileSystem => (command.execute fileSystem state).2.2

/-- The state after a sequence of calls to a new object. -/
def stateAfter (calls : List Call) : State := calls.foldl command.call {}

/-- The paths that an execution after some calls removes. -/
def removed (calls : List Call) (fileSystem : Path → RemoveResult) : List Path :=
  (command.execute fileSystem (command.stateAfter calls)).1.filterMap fun
    | .remove path => some path
    | _ => none

end StaleFileRemovalCommand

/-! ## The calls before an execution -/

/-- What was called, told apart from the fields of the command. -/
structure History where
  /-- The prior value provided last. -/
  prior : Option BuildValue := none
  /-- The prior value, if any, when the files to delete were first asked for. -/
  askedWith : Option (Option BuildValue) := none

namespace History

variable (history : History)

/-- The value is a list of stale files. -/
def hasList : Bool := (history.prior.map isStaleFileRemoval).getD false

/-- The paths that the preceding execution recorded. -/
def recorded : List Path :=
  if history.hasList then getStaleFileList (history.prior.getD makeInvalid) else []

def ask : History :=
  match history.askedWith with
  | none => { history with askedWith := some history.prior }
  | some _ => history

def call : Call → History
  | .getVerboseDescription => history.ask
  | .providePriorValue value => { history with prior := some value }
  | .execute _ => if history.hasList then history.ask else history

def of (calls : List Call) : History := calls.foldl call {}

/-- The paths that were listed when the files to delete were first asked for. -/
def listedWhenAsked : Option (List Path) :=
  history.askedWith.map fun prior => getStaleFileList (prior.getD makeInvalid)

end History

section Tracking

variable {command : StaleFileRemovalCommand}

/-- The fields of the command say what was called. -/
structure Tracks (command : StaleFileRemovalCommand) (history : History) (state : State) : Prop where
  priorValue : state.priorValue = history.prior.getD makeInvalid
  hasPriorResult : state.hasPriorResult = history.prior.isSome
  computed : state.computedFilesToDelete = history.askedWith.isSome
  files : state.filesToDelete = command.staleFiles (history.listedWhenAsked.getD [])

theorem mem_staleFiles {paths : List Path} {p : Path} :
    p ∈ command.staleFiles paths ↔ p ∈ paths ∧ p ∉ command.expectedOutputs := by
  simp [StaleFileRemovalCommand.staleFiles]

theorem tracks_new : Tracks command {} {} where
  priorValue := rfl
  hasPriorResult := rfl
  computed := rfl
  files := by simp [StaleFileRemovalCommand.staleFiles, History.listedWhenAsked]

variable {history : History} {state : State}

section

variable (h : Tracks command history state)
include h

theorem Tracks.ask :
    Tracks command history.ask (command.computeFilesToDelete state) := by
  unfold StaleFileRemovalCommand.computeFilesToDelete History.ask
  cases hasked : history.askedWith with
  | none =>
    have hcomputed : state.computedFilesToDelete = false := by rw [h.computed, hasked]; rfl
    have hfiles : state.filesToDelete = [] := by
      rw [h.files, History.listedWhenAsked, hasked]
      simp [StaleFileRemovalCommand.staleFiles]
    simp only [hcomputed, Bool.false_eq_true, if_false]
    exact ⟨h.priorValue, h.hasPriorResult, rfl, by simp [hfiles, h.priorValue, History.listedWhenAsked]⟩
  | some prior =>
    have hcomputed : state.computedFilesToDelete = true := by rw [h.computed, hasked]; rfl
    simp only [hcomputed, if_true]
    exact h

/-- The test of `execute` for a prior list. -/
theorem Tracks.hasList :
    (!state.hasPriorResult || !isStaleFileRemoval state.priorValue) = !history.hasList := by
  rw [h.hasPriorResult, h.priorValue, History.hasList]
  cases history.prior <;> simp

theorem Tracks.call (call : Call) :
    Tracks command (history.call call) (command.call state call) := by
  cases call with
  | getVerboseDescription => exact h.ask
  | providePriorValue value => exact ⟨rfl, rfl, h.computed, h.files⟩
  | execute fileSystem =>
    simp only [StaleFileRemovalCommand.call, StaleFileRemovalCommand.execute, h.hasList, History.call]
    cases history.hasList
    · exact h
    · exact h.ask

end

variable (command) in
theorem tracks_stateAfter (calls : List Call) :
    Tracks command (.of calls) (command.stateAfter calls) := by
  have hrun : ∀ {history : History} {state : State}, Tracks command history state →
      Tracks command (calls.foldl History.call history) (calls.foldl command.call state) := by
    induction calls with
    | nil => exact fun h => h
    | cons call calls ih => exact fun h => ih (h.call call)
  exact hrun tracks_new

end Tracking

/-! ## What an execution removes -/

section Removal

variable {command : StaleFileRemovalCommand}

/-- The roots let the command remove a path. -/
def Admitted (command : StaleFileRemovalCommand) (p : Path) : Prop :=
  command.roots = [] ∨ p.head? = some slash ∧ ∃ root ∈ command.roots, pathIsPrefixedByPath p root = true

variable {fileSystem : Path → StaleFileRemovalCommand.RemoveResult} {p : Path}

theorem remove_mem_deleteFile {file : Path} :
    .remove p ∈ command.deleteFile fileSystem file ↔ p = file ∧ Admitted command file := by
  have hremove : ∀ result : StaleFileRemovalCommand.RemoveResult,
      (.remove p ∈ StaleFileRemovalCommand.Action.remove file :: match result with
        | .removed => [.commandHadNote (ascii "Removed stale file '" ++ file ++ ascii "'\n")]
        | .missing => []
        | .error text =>
          [.commandHadWarning (ascii "cannot remove stale file '" ++ file ++ ascii "': " ++ text ++ ascii "\n")])
      ↔ p = file := by
    intro result
    cases result <;> simp
  unfold StaleFileRemovalCommand.deleteFile Admitted
  by_cases hroots : command.roots = []
  · simpa [hroots] using hremove (fileSystem file)
  · by_cases habsolute : file.head? = some slash
    · by_cases hunder : ∃ root ∈ command.roots, pathIsPrefixedByPath file root = true
      · have hany : command.roots.any (pathIsPrefixedByPath file) = true := any_eq_true.mpr hunder
        simpa [hroots, habsolute, hany, hunder] using hremove (fileSystem file)
      · have hany : ¬command.roots.any (pathIsPrefixedByPath file) = true := fun h => hunder (any_eq_true.mp h)
        rw [if_neg (by simp [habsolute]), if_neg (by simp [hroots, hany])]
        simp [hroots, hunder]
    · rw [if_pos ⟨hroots, habsolute⟩]
      simp [hroots, habsolute]

theorem mem_removed {calls : List Call} :
    p ∈ command.removed calls fileSystem
      ↔ (History.of calls).hasList = true ∧ Admitted command p ∧ p ∉ command.expectedOutputs
        ∧ p ∈ (History.of calls).ask.listedWhenAsked.getD [] := by
  have htracks := tracks_stateAfter command calls
  unfold StaleFileRemovalCommand.removed
  generalize command.stateAfter calls = state at htracks ⊢
  have hactions : ∀ actions : List StaleFileRemovalCommand.Action,
      (p ∈ actions.filterMap fun
        | .remove path => some path
        | _ => none) ↔ .remove p ∈ actions := by
    intro actions
    simp only [mem_filterMap]
    constructor
    · rintro ⟨action, haction, heq⟩
      cases action with
      | remove path =>
        cases heq
        exact haction
      | _ => cases heq
    · exact fun h => ⟨_, h, rfl⟩
  rw [hactions]
  unfold StaleFileRemovalCommand.execute
  rw [htracks.hasList]
  cases hlist : (History.of calls).hasList with
  | false => simp
  | true =>
    have hfiles := htracks.ask.files
    simp only [Bool.not_true, Bool.false_eq_true, if_false, hfiles]
    simp [remove_mem_deleteFile, mem_staleFiles]
    tauto

/-! ## Roots -/

theorem mismatch_spec (as bs : Path) :
    ∃ common, as = common ++ (mismatch as bs).1 ∧ bs = common ++ (mismatch as bs).2
      ∧ ∀ a as' bs', (mismatch as bs).1 = a :: as' → (mismatch as bs).2 ≠ a :: bs' := by
  induction as, bs using mismatch.induct with
  | case1 as a bs ih =>
    obtain ⟨common, has, hbs, hne⟩ := ih
    simp only [mismatch, if_true]
    exact ⟨a :: common, congrArg (List.cons a) has, congrArg (List.cons a) hbs, hne⟩
  | case2 a as b bs hab =>
    simp only [mismatch, hab, if_false]
    refine ⟨[], rfl, rfl, ?_⟩
    intro e as' bs' ha hb
    cases ha
    cases hb
    exact hab rfl
  | case3 as bs hnot =>
    have hself : mismatch as bs = (as, bs) := by
      unfold mismatch
      split
      · exact absurd rfl (hnot _ _ _ _ rfl)
      · rfl
    rw [hself]
    refine ⟨[], rfl, rfl, ?_⟩
    rintro a as' bs' rfl rfl
    exact hnot a as' a bs' rfl rfl

/-- The code's notion of a path under a root: a root that ends in a separator has nothing but itself under it. -/
theorem pathIsPrefixedByPath_iff {root : Path} :
    pathIsPrefixedByPath p root = true ↔ p = root ∨ p ++ [slash] = root ∨ root ++ [slash] <+: p := by
  unfold pathIsPrefixedByPath
  by_cases hlen : root.length > p.length
  · have hne : p ≠ root := fun h => by simp [h] at hlen
    have hnot : ¬root ++ [slash] <+: p := by
      intro h
      have := h.length_le
      simp only [length_append] at this
      omega
    simp only [hlen, if_true, decide_eq_true_eq, hne, hnot, false_or, or_false]
    constructor
    · rintro ⟨rfl, hlast⟩
      exact dropLast_append_getLast? _ hlast
    · rintro rfl
      simp
  · obtain ⟨common, hroot, hpath, hheads⟩ := mismatch_spec root p
    simp only [hlen, if_false, decide_eq_true_eq]
    generalize (mismatch root p).1 = restRoot at hroot hheads ⊢
    generalize (mismatch root p).2 = restPath at hpath hheads ⊢
    subst hroot hpath
    simp only [length_append, not_lt, Nat.add_le_add_iff_left, gt_iff_lt] at hlen
    have hshort : restPath ++ [slash] ≠ restRoot := by
      rintro rfl
      simp at hlen
    simp only [append_assoc, append_cancel_left_eq, prefix_append_right_inj, hshort, false_or]
    cases restRoot with
    | nil => cases restPath with
      | nil => simp
      | cons b restPath => simp [cons_prefix_cons, eq_comm (a := slash)]
    | cons a restRoot =>
      -- both go on, with different characters
      have hne : restPath.head? ≠ some a := by
        intro h
        obtain ⟨restPath, rfl⟩ := List.head?_eq_some_iff.mp h
        exact hheads a restRoot restPath rfl rfl
      have hcons : restPath ≠ [] := by
        rintro rfl
        simp at hlen
      constructor
      · rintro ⟨hsep, hsep'⟩
        have ha : a = slash := by simpa using hsep
        exact absurd (hsep'.resolve_left hcons) (ha ▸ hne)
      · rintro (rfl | ⟨rest, rfl⟩)
        · exact absurd rfl hne
        · exact absurd rfl hne

/-- A path at a root, up to a trailing separator, or under it. -/
def AtOrUnder (root p : Path) : Prop := p = root ∨ p ++ [slash] = root ∨ Below slash root p

theorem atOrUnder_of_prefixed {root : Path} (h : pathIsPrefixedByPath p root = true) : AtOrUnder root p := by
  rcases pathIsPrefixedByPath_iff.mp h with heq | heq | hunder
  · exact .inl heq
  · exact .inr (.inl heq)
  · refine .inr (.inr ?_)
    have hclosed : closed slash root <+: root ++ [slash] := by
      unfold closed
      split
      · exact prefix_append _ _
      · exact prefix_refl _
    exact hclosed.trans hunder

end Removal

/-! ## Stale files only -/

section Stale

variable (command : StaleFileRemovalCommand) (calls : List Call)

/-- A path that an execution after these calls is to remove. -/
def Stale (p : Path) : Prop :=
  p ∈ (History.of calls).recorded ∧ p ∉ command.expectedOutputs
    ∧ (command.roots ≠ [] → p.head? = some slash ∧ ∃ root ∈ command.roots, AtOrUnder root p)

/-- An execution after these calls removes exactly the stale files. -/
def RemovesStale (fileSystem : Path → StaleFileRemovalCommand.RemoveResult) : Prop :=
  ∀ p, p ∈ command.removed calls fileSystem ↔ Stale command calls p

/-- The calls leave the command with the right files: if they have asked for the files to delete before, it was
with a prior value that listed the same files, of those that the roots admit; and each absolute stale path under a
root is under a root that has no separator at its end. -/
structure Undisturbed : Prop where
  asked : (History.of calls).hasList = true → ∀ listed, (History.of calls).listedWhenAsked = some listed →
    ∀ p, Admitted command p → p ∉ command.expectedOutputs → (p ∈ listed ↔ p ∈ (History.of calls).recorded)
  roots : ∀ p ∈ (History.of calls).recorded, p ∉ command.expectedOutputs → p.head? = some slash →
    (∃ root ∈ command.roots, AtOrUnder root p) →
    ∃ root ∈ command.roots, p = root ∨ p ++ [slash] = root ∨ root ++ [slash] <+: p

variable {command calls}

theorem Admitted.underRoot {p : Path} (h : Admitted command p) (hroots : command.roots ≠ []) :
    p.head? = some slash ∧ ∃ root ∈ command.roots, AtOrUnder root p := by
  obtain ⟨habsolute, root, hroot, hprefixed⟩ := h.resolve_left hroots
  exact ⟨habsolute, root, hroot, atOrUnder_of_prefixed hprefixed⟩

/-- What is asked for now, or was asked for before. -/
theorem listed_ask (history : History) :
    history.ask.listedWhenAsked.getD []
      = history.listedWhenAsked.getD (getStaleFileList (history.prior.getD makeInvalid)) := by
  obtain ⟨prior, askedWith⟩ := history
  cases askedWith <;> rfl

theorem recorded_of_hasList {history : History} (h : history.hasList = true) :
    history.recorded = getStaleFileList (history.prior.getD makeInvalid) := by
  rw [History.recorded, if_pos h]

theorem recorded_of_not_hasList {history : History} (h : history.hasList = false) : history.recorded = [] := by
  rw [History.recorded, h]
  rfl

theorem removesStale_iff (fileSystem : Path → StaleFileRemovalCommand.RemoveResult) :
    RemovesStale command calls fileSystem ↔ Undisturbed command calls := by
  have hremoved : ∀ p, p ∈ command.removed calls fileSystem ↔ _ := fun p => mem_removed
  cases hlist : (History.of calls).hasList with
  | false =>
    have hnone := recorded_of_not_hasList hlist
    refine iff_of_true (fun p => ?_) ⟨by simp [hlist], by simp [hnone]⟩
    rw [hremoved, Stale, hnone, hlist]
    simp
  | true =>
    have hrecorded := recorded_of_hasList hlist
    constructor
    · intro h
      refine ⟨fun _ listed hlisted p hadmitted hexpected => ?_, fun p hp hexpected habsolute hunder => ?_⟩
      · have hp := h p
        rw [hremoved, listed_ask, hlisted, Option.getD_some] at hp
        constructor
        · intro hmem
          exact (hp.mp ⟨hlist, hadmitted, hexpected, hmem⟩).1
        · intro hmem
          exact (hp.mpr ⟨hmem, hexpected, hadmitted.underRoot⟩).2.2.2
      · have hmem := (h p).mpr ⟨hp, hexpected, fun _ => ⟨habsolute, hunder⟩⟩
        obtain ⟨root, hroot, -⟩ := hunder
        have hadmitted := ((hremoved p).mp hmem).2.1
        obtain ⟨-, root, hroot, hprefixed⟩ := hadmitted.resolve_left (ne_nil_of_mem hroot)
        exact ⟨root, hroot, pathIsPrefixedByPath_iff.mp hprefixed⟩
    · intro h p
      have hlisted : Admitted command p → p ∉ command.expectedOutputs →
          (p ∈ (History.of calls).ask.listedWhenAsked.getD [] ↔ p ∈ (History.of calls).recorded) := by
        intro hadmitted hexpected
        rw [listed_ask]
        cases hasked : (History.of calls).listedWhenAsked with
        | none => rw [Option.getD_none, hrecorded]
        | some listed => exact h.asked hlist listed hasked p hadmitted hexpected
      rw [hremoved]
      constructor
      · rintro ⟨-, hadmitted, hexpected, hmem⟩
        exact ⟨(hlisted hadmitted hexpected).mp hmem, hexpected, hadmitted.underRoot⟩
      · rintro ⟨hmem, hexpected, hunder⟩
        have hadmitted : Admitted command p := by
          by_cases hroots : command.roots = []
          · exact .inl hroots
          · obtain ⟨habsolute, hunder⟩ := hunder hroots
            obtain ⟨root, hroot, hprefixed⟩ := h.roots p hmem hexpected habsolute hunder
            exact .inr ⟨habsolute, root, hroot, pathIsPrefixedByPath_iff.mpr hprefixed⟩
        exact ⟨hlist, hadmitted, hexpected, (hlisted hadmitted hexpected).mpr hmem⟩

end Stale

/-- **Stale file removal deletes only stale files**, in a run of calls to one object, exactly if every execution
is undisturbed by the calls before it. -/
theorem execute_removes_iff (command : StaleFileRemovalCommand) (run : List Call) :
    (∀ before fileSystem after, run = before ++ .execute fileSystem :: after →
        RemovesStale command before fileSystem)
      ↔ ∀ before fileSystem after, run = before ++ .execute fileSystem :: after → Undisturbed command before := by
  constructor
  · intro h before fileSystem after hrun
    exact (removesStale_iff fileSystem).mp (h before fileSystem after hrun)
  · intro h before fileSystem after hrun
    exact (removesStale_iff fileSystem).mpr (h before fileSystem after hrun)

/-- A command that expects the file `b`. -/
def expectsB : StaleFileRemovalCommand where
  expectedOutputs := [ascii "b"]
  stored := by decide

/-- The value that an execution recorded which expected the file `a`. -/
def recordedA : BuildValue := makeStaleFileRemoval (.ofValues [ascii "a"] (by decide))

/-- Two builds with one object: the second one provides what the first one recorded, and removes `a` again. -/
theorem execute_removes_again :
    ¬∀ (command : StaleFileRemovalCommand) (run before : List Call)
      (fileSystem : Path → StaleFileRemovalCommand.RemoveResult) (after : List Call),
      run = before ++ .execute fileSystem :: after → RemovesStale command before fileSystem := by
  intro h
  let fileSystem : Path → StaleFileRemovalCommand.RemoveResult := fun _ => .removed
  let first : List Call := [.providePriorValue recordedA]
  let value := (expectsB.execute fileSystem (expectsB.stateAfter first)).2.1
  let before : List Call := first ++ [.execute fileSystem, .providePriorValue value]
  have hstale := h expectsB _ before fileSystem [] rfl
  have hremoved : ascii "a" ∈ expectsB.removed before fileSystem :=
    mem_removed.mpr ⟨rfl, .inl rfl, by decide, by decide⟩
  have hrecorded := ((hstale _).mp hremoved).1
  exact absurd hrecorded (by decide)

end StaleFileRemoval

end Builra
