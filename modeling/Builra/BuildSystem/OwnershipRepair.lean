import Builra.BuildSystem.Ownership

namespace Builra

open List Option

/-!
# `BuildSystem.OwnershipRepair` — the repair steps after the ownership analysis

Two steps change the loaded objects so that readers of directories wait for the writers. The first makes the owner
of a path produce the directory inputs under it; it asks neither who reads the input nor whether it has a producer
already. The second adds outputs to the paths that an unowned directory input must be scanned after; each output
goes to the first such directory whose name it starts with, with no check for a separator.

`repair_ordersReaders_iff` says for which build files readers are ordered after writers all the same.
-/

open Subpath

namespace Ownership

/-! ## The steps -/

/-- `Command::addOutput`. -/
def addOutput (objects : Objects) (c n : Name) : Objects where
  node m :=
    if m = n then { objects.node m with producers := (objects.node m).producers ++ [c] } else objects.node m
  command d :=
    if d = c then { objects.command d with outputs := (objects.command d).outputs ++ [n] } else objects.command d

local instance : LawfulBEq Name := inferInstance

variable (owners : Owners)

/-- One iteration of `amendOutputOfOwnersWithConsumedSubpaths`. -/
def amendOutput (objects : Objects) (input : Name × Name) : Objects :=
  match includedOwnerOf owners input.1 with
  | none => objects
  | some owner =>
    if input.1 ∈ (objects.command owner).outputs then objects
    else if (objects.command owner).repairViaOwnershipAnalysis then addOutput objects owner input.1
    else objects

def amendOutputOfOwnersWithConsumedSubpaths (directoryInputs : List (Name × Name))
    (objects : Objects) : Objects :=
  directoryInputs.foldl (amendOutput owners) objects

def unownedDirectoryInputs (directoryInputs : List (Name × Name)) (objects : Objects) :
    List (Name × Name) :=
  directoryInputs.filter fun input =>
    isIncludedUnownedNode owners input.1 && (objects.command input.2).repairViaOwnershipAnalysis

/-- `mustScanAfterPaths.push_back`. -/
def addMustScanAfterPath (objects : Objects) (d p : Name) : Objects where
  node m :=
    if m = d then { objects.node m with mustScanAfterPaths := (objects.node m).mustScanAfterPaths ++ [p] }
    else objects.node m
  command := objects.command

/-- One iteration of the second step, over the unowned directory inputs. -/
def deferScanning (unowned : List (Name × Name)) (objects : Objects) (output : Name × Name) : Objects :=
  match unowned.find? fun input =>
      input.1.isPrefixOf output.1 && (objects.command output.2).repairViaOwnershipAnalysis with
  | none => objects
  | some input => addMustScanAfterPath objects input.1 output.1

def deferScanningUnownedInputsUntilSubpathsAvailable (directoryInputs outputs : List (Name × Name))
    (objects : Objects) : Objects :=
  outputs.foldl (deferScanning (unownedDirectoryInputs owners directoryInputs objects)) objects

/-- Both steps, as `BuildFileImpl::load` takes them. -/
def repair (directoryInputs outputs : List (Name × Name)) (objects : Objects) : Objects :=
  deferScanningUnownedInputsUntilSubpathsAvailable owners directoryInputs outputs
    (amendOutputOfOwnersWithConsumedSubpaths owners directoryInputs objects)

/-! ## What the first step changes -/

section Amend

variable (owners : Owners) (objects : Objects)

/-- The producer that a node gets. -/
def newProducer (directoryInputs : List (Name × Name)) (n : Name) : Option Name :=
  if n ∈ directoryInputs.map Prod.fst then
    (includedOwnerOf owners n).filter fun owner =>
      decide (n ∉ (objects.command owner).outputs) && (objects.command owner).repairViaOwnershipAnalysis
  else none

/-- The objects after the first step: one more producer for the nodes that get one, with the node as an output of
that producer, and all else as before. -/
structure Amended (directoryInputs : List (Name × Name)) (amended : Objects) : Prop where
  node : ∀ n, amended.node n
    = { objects.node n with
        producers := (objects.node n).producers ++ (newProducer owners objects directoryInputs n).toList }
  outputs : ∀ n c, n ∈ (amended.command c).outputs
    ↔ n ∈ (objects.command c).outputs ∨ newProducer owners objects directoryInputs n = some c
  flag : ∀ c, (amended.command c).repairViaOwnershipAnalysis = (objects.command c).repairViaOwnershipAnalysis

variable {owners objects}

variable {directoryInputs : List (Name × Name)}

theorem newProducer_some {n owner : Name} :
    newProducer owners objects directoryInputs n = some owner
      ↔ n ∈ directoryInputs.map Prod.fst ∧ includedOwnerOf owners n = some owner
        ∧ n ∉ (objects.command owner).outputs ∧ (objects.command owner).repairViaOwnershipAnalysis = true := by
  unfold newProducer
  split
  · simp_all [filter_eq_some_iff]
  · simp_all

theorem newProducer_append {d c n : Name} (hne : n ≠ d) :
    newProducer owners objects (directoryInputs ++ [(d, c)]) n = newProducer owners objects directoryInputs n := by
  have hmem : n ∈ (directoryInputs ++ [(d, c)]).map Prod.fst ↔ n ∈ directoryInputs.map Prod.fst := by simp [hne]
  unfold newProducer
  rw [if_congr hmem rfl rfl]

/-- The step leaves the objects as they are when it gives no new producer. -/
theorem Amended.keep {amended : Objects} {d c : Name} (h : Amended owners objects directoryInputs amended)
    (hsame : newProducer owners objects (directoryInputs ++ [(d, c)]) d = newProducer owners objects directoryInputs d) :
    Amended owners objects (directoryInputs ++ [(d, c)]) amended := by
  have hall : ∀ n, newProducer owners objects (directoryInputs ++ [(d, c)]) n
      = newProducer owners objects directoryInputs n := by
    intro n
    by_cases hne : n = d
    · exact hne ▸ hsame
    · exact newProducer_append hne
  refine ⟨fun n => ?_, fun n e => ?_, h.flag⟩
  · rw [hall, h.node]
  · rw [hall, h.outputs]

/-- The owner of a directory input becomes its producer. -/
theorem Amended.add {amended : Objects} {d c owner : Name} (h : Amended owners objects directoryInputs amended)
    (hown : includedOwnerOf owners d = some owner) (hout : d ∉ (amended.command owner).outputs)
    (hflag : (amended.command owner).repairViaOwnershipAnalysis = true) :
    Amended owners objects (directoryInputs ++ [(d, c)]) (addOutput amended owner d) := by
  obtain ⟨hold, hnot⟩ := not_or.mp fun hor => hout ((h.outputs d owner).mpr hor)
  have hbefore : newProducer owners objects directoryInputs d = none := by
    apply eq_none_iff_forall_ne_some.mpr
    intro e he
    obtain rfl : owner = e := Option.some.inj (hown.symm.trans (newProducer_some.mp he).2.1)
    exact hnot he
  have hafter : newProducer owners objects (directoryInputs ++ [(d, c)]) d = some owner :=
    newProducer_some.mpr ⟨by simp, hown, hold, by rw [← h.flag]; exact hflag⟩
  refine ⟨fun n => ?_, fun n e => ?_, fun e => ?_⟩
  · by_cases hn : n = d
    · subst hn
      simp [addOutput, h.node, hbefore, hafter]
    · simp [addOutput, h.node, hn, newProducer_append hn]
  · by_cases hn : n = d
    · subst hn
      by_cases he : e = owner
      · subst he
        simp [addOutput, hafter]
      · simp [addOutput, he, h.outputs, hbefore, hafter, Ne.symm he]
    · rw [newProducer_append hn, ← h.outputs]
      by_cases he : e = owner
      · subst he
        simp [addOutput, hn]
      · simp [addOutput, he]
  · by_cases he : e = owner
    · subst he
      simp [addOutput, h.flag]
    · simp [addOutput, he, h.flag]

variable (owners objects) in
theorem amend_spec (directoryInputs : List (Name × Name)) :
    Amended owners objects directoryInputs
      (amendOutputOfOwnersWithConsumedSubpaths owners directoryInputs objects) := by
  induction directoryInputs using List.reverseRecOn with
  | nil => exact ⟨by simp [amendOutputOfOwnersWithConsumedSubpaths, newProducer],
      by simp [amendOutputOfOwnersWithConsumedSubpaths, newProducer], fun _ => rfl⟩
  | append_singleton inputs input ih =>
    obtain ⟨d, c⟩ := input
    have hfold : amendOutputOfOwnersWithConsumedSubpaths owners (inputs ++ [(d, c)]) objects
        = amendOutput owners (amendOutputOfOwnersWithConsumedSubpaths owners inputs objects) (d, c) := by
      simp [amendOutputOfOwnersWithConsumedSubpaths]
    rw [hfold]
    generalize amendOutputOfOwnersWithConsumedSubpaths owners inputs objects = amended at ih ⊢
    have hd : d ∈ (inputs ++ [(d, c)]).map Prod.fst := by simp
    unfold amendOutput
    cases hown : includedOwnerOf owners d with
    | none =>
      apply ih.keep
      simp [newProducer, hown]
    | some owner =>
      dsimp only
      by_cases hout : d ∈ (amended.command owner).outputs
      · rw [if_pos hout]
        apply ih.keep
        rcases (ih.outputs d owner).mp hout with hold | hnew
        · simp [newProducer, hown, hold]
        · rw [hnew]
          exact newProducer_some.mpr ⟨hd, (newProducer_some.mp hnew).2⟩
      · rw [if_neg hout]
        by_cases hflag : (amended.command owner).repairViaOwnershipAnalysis = true
        · rw [if_pos hflag]
          exact ih.add hown hout hflag
        · rw [if_neg hflag]
          apply ih.keep
          rw [ih.flag] at hflag
          simp [newProducer, hown, hflag]

end Amend

/-! ## What the second step changes -/

section Defer

variable (objects : Objects) (unowned : List (Name × Name))

/-- The directory that takes an output, if one does. -/
def taker (output : Name × Name) : Option Name :=
  (unowned.find? fun input =>
    input.1.isPrefixOf output.1 && (objects.command output.2).repairViaOwnershipAnalysis).map Prod.fst

theorem defer_spec (outputs : List (Name × Name)) :
    (outputs.foldl (deferScanning unowned) objects).command = objects.command
    ∧ ∀ n, (outputs.foldl (deferScanning unowned) objects).node n
      = { objects.node n with
          mustScanAfterPaths := (objects.node n).mustScanAfterPaths
            ++ (outputs.filter fun output => taker objects unowned output = some n).map Prod.fst } := by
  induction outputs using List.reverseRecOn with
  | nil => simp
  | append_singleton outputs output ih =>
    obtain ⟨p, c⟩ := output
    rw [foldl_append]
    generalize outputs.foldl (deferScanning unowned) objects = deferred at ih ⊢
    obtain ⟨hcommand, hnode⟩ := ih
    have htaker : (unowned.find? fun input =>
        input.1.isPrefixOf p && (deferred.command c).repairViaOwnershipAnalysis).map Prod.fst
        = taker objects unowned (p, c) := by rw [hcommand, taker]
    simp only [foldl_cons, foldl_nil, deferScanning]
    cases hfind : unowned.find? fun input =>
        input.1.isPrefixOf p && (deferred.command c).repairViaOwnershipAnalysis with
    | none =>
      rw [hfind, map_none] at htaker
      refine ⟨hcommand, fun n => ?_⟩
      simp [hnode, ← htaker]
    | some input =>
      rw [hfind, map_some] at htaker
      refine ⟨hcommand, fun n => ?_⟩
      by_cases hn : n = input.1
      · subst hn
        simp [addMustScanAfterPath, hnode, ← htaker]
      · simp [addMustScanAfterPath, hnode, hn, ← htaker, Ne.symm hn]

end Defer

/-! ## Readers after writers -/

/-- A loaded build file. The loader enters each command as a producer of its outputs. -/
structure LoadedFile where
  objects : Objects
  commands : List Name
  producers_iff : ∀ n, ∀ c ∈ commands, c ∈ (objects.node n).producers ↔ n ∈ (objects.command c).outputs

namespace LoadedFile

variable (file : LoadedFile) (owners : Owners)

def directoryInputs : List (Name × Name) := directoryInputsOf file.objects file.commands

/-- A directory input of a participating command that the analysis finds unowned. -/
def UnownedInput (d : Name) : Prop :=
  isIncludedUnownedNode owners d = true
    ∧ ∃ c, (d, c) ∈ file.directoryInputs ∧ file.objects.participates c = true

/-- An output of a participating command that lies under a directory. -/
def OutputUnder (d p : Name) : Prop :=
  (∃ c ∈ file.commands, file.objects.participates c = true ∧ p ∈ (file.objects.command c).outputs) ∧ Below slash d p

/-- Readers are ordered after writers in the repaired objects. -/
structure OrdersReaders (repaired : Objects) : Prop where
  produced : ∀ d c, (d, c) ∈ file.directoryInputs → ∀ n owner, (n, owner) ∈ owners.includedPaths → Below slash n d →
    owner ∈ (repaired.node d).producers ∨ (file.objects.node d).producers ≠ []
  notOwnInput : ∀ c ∈ file.commands, ∀ n ∈ (file.objects.command c).inputs,
    c ∈ (repaired.node n).producers → c ∈ (file.objects.node n).producers
  noSecondProducer : ∀ n, (repaired.node n).producers = (file.objects.node n).producers
    ∨ (file.objects.node n).producers = [] ∧ ∃ c, (repaired.node n).producers = [c]
  scannedAfter : ∀ d, file.UnownedInput owners d →
    ∃ added, (repaired.node d).mustScanAfterPaths = (file.objects.node d).mustScanAfterPaths ++ added
      ∧ ∀ p, p ∈ added ↔ file.OutputUnder d p

/-- The directories that may take outputs, in the order in which they are tried. -/
def takers : List Name := (unownedDirectoryInputs owners file.directoryInputs file.objects).map Prod.fst

/-- The first of the directories with whose name the path starts. -/
def FirstStart (directories : List Name) (d p : Name) : Prop :=
  ∃ before after, directories = before ++ d :: after ∧ d <+: p ∧ ∀ e ∈ before, ¬e <+: p

/-- When the repair works: an owner that becomes a producer does not read the directory and is its first producer,
and an output lies under exactly the directory that takes it. -/
structure Repairable : Prop where
  consumed : ∀ d c, (d, c) ∈ file.directoryInputs → ∀ owner, includedOwnerOf owners d = some owner →
    d ∉ (file.objects.command owner).outputs →
    d ∉ (file.objects.command owner).inputs ∧ (file.objects.node d).producers = []
  taken : ∀ d, file.UnownedInput owners d → ∀ p c, (p, c) ∈ outputsOf file.objects file.commands →
    (file.objects.command c).repairViaOwnershipAnalysis = true → FirstStart (file.takers owners) d p →
    file.OutputUnder d p
  under : ∀ d, file.UnownedInput owners d → ∀ p, file.OutputUnder d p →
    (file.objects.node p).isVirtual = false ∧ FirstStart (file.takers owners) d p

/-- An output is taken by the first directory with whose name it starts. -/
theorem taker_iff {objects : Objects} {unowned : List (Name × Name)} {p c d : Name} :
    taker objects unowned (p, c) = some d
      ↔ (objects.command c).repairViaOwnershipAnalysis = true ∧ FirstStart (unowned.map Prod.fst) d p := by
  unfold taker
  cases hflag : (objects.command c).repairViaOwnershipAnalysis with
  | false =>
    have hnone : (unowned.find? fun input => input.1.isPrefixOf p && false) = none := by simp [find?_eq_none]
    rw [hnone]
    simp
  | true =>
    have hnames : (unowned.find? fun input => input.1.isPrefixOf p && true).map Prod.fst
        = (unowned.map Prod.fst).find? fun e => e.isPrefixOf p := by
      simp [find?_map, Function.comp_def]
    rw [hnames, find?_eq_some_iff_append]
    unfold FirstStart
    simp only [true_and, isPrefixOf_iff_prefix, Bool.not_eq_true', ← Bool.not_eq_true]
    constructor
    · rintro ⟨hd, before, after, heq, hbefore⟩
      exact ⟨before, after, heq, hd, hbefore⟩
    · rintro ⟨before, after, heq, hd, hbefore⟩
      exact ⟨hd, before, after, heq, hbefore⟩

variable {file owners}

/-- The nodes after both steps. -/
theorem repaired_node (outputs : List (Name × Name)) (n : Name) :
    (repair owners file.directoryInputs outputs file.objects).node n
      = { file.objects.node n with
          producers := (file.objects.node n).producers
            ++ (newProducer owners file.objects file.directoryInputs n).toList
          mustScanAfterPaths := (file.objects.node n).mustScanAfterPaths
            ++ (outputs.filter fun output => taker file.objects
              (unownedDirectoryInputs owners file.directoryInputs file.objects) output = some n).map Prod.fst } := by
  have hamend := amend_spec owners file.objects file.directoryInputs
  unfold repair deferScanningUnownedInputsUntilSubpathsAvailable
  generalize amendOutputOfOwnersWithConsumedSubpaths owners file.directoryInputs file.objects = amended at hamend ⊢
  have hunowned : unownedDirectoryInputs owners file.directoryInputs amended
      = unownedDirectoryInputs owners file.directoryInputs file.objects := by
    simp only [unownedDirectoryInputs, hamend.flag]
  have htaker : taker amended = taker file.objects := by
    funext unowned output
    simp only [taker, hamend.flag]
  rw [hunowned, (defer_spec amended _ outputs).2 n, htaker, hamend.node]

theorem mem_added {outputs : List (Name × Name)} {d p : Name} :
    p ∈ (outputs.filter fun output => taker file.objects
        (unownedDirectoryInputs owners file.directoryInputs file.objects) output = some d).map Prod.fst
      ↔ ∃ c, (p, c) ∈ outputs ∧ (file.objects.command c).repairViaOwnershipAnalysis = true
        ∧ FirstStart (file.takers owners) d p := by
  simp [taker_iff, takers]

section Iff

variable {sorted : SortedOutputs file.objects file.commands}
  (hrec : Recorded file.objects sorted.outputNodesAndCommands owners)
include hrec

theorem owner_participates {d owner : Name} (hown : includedOwnerOf owners d = some owner) :
    owner ∈ file.commands ∧ (file.objects.command owner).repairViaOwnershipAnalysis = true := by
  obtain ⟨n, hn, -⟩ := includedOwnerOf_some hown
  obtain ⟨hout, hparticipates⟩ := hrec.included _ hn
  exact ⟨(mem_outputsOf.mp (sorted.perm.mem_iff.mp hout)).1, (Bool.and_eq_true_iff.mp hparticipates).2⟩

theorem newProducer_iff {d owner : Name} :
    newProducer owners file.objects file.directoryInputs d = some owner
      ↔ (∃ c, (d, c) ∈ file.directoryInputs) ∧ includedOwnerOf owners d = some owner
        ∧ d ∉ (file.objects.command owner).outputs := by
  rw [newProducer_some]
  constructor
  · rintro ⟨hd, hown, hout, -⟩
    exact ⟨by simpa using hd, hown, hout⟩
  · rintro ⟨hd, hown, hout⟩
    exact ⟨by simpa using hd, hown, hout, (owner_participates hrec hown).2⟩

theorem repairable_of_ordersReaders
    (h : file.OrdersReaders owners
      (repair owners file.directoryInputs sorted.outputNodesAndCommands file.objects)) :
    file.Repairable owners := by
  -- what was added is what the second step pushes
  have hadded : ∀ d, file.UnownedInput owners d → ∀ p, file.OutputUnder d p
      ↔ ∃ c, (p, c) ∈ sorted.outputNodesAndCommands
        ∧ (file.objects.command c).repairViaOwnershipAnalysis = true ∧ FirstStart (file.takers owners) d p := by
    intro d hd p
    obtain ⟨added, heq, hiff⟩ := h.scannedAfter d hd
    rw [repaired_node] at heq
    rw [← hiff, ← append_cancel_left heq, mem_added]
  refine ⟨?_, ?_, ?_⟩
  · intro d c hd owner hown hout
    have hnew := (newProducer_iff hrec).mpr ⟨⟨c, hd⟩, hown, hout⟩
    have hcommand := (owner_participates hrec hown).1
    constructor
    · intro hinput
      have hproducer := h.notOwnInput owner hcommand d hinput (by simp [repaired_node, hnew])
      exact hout ((file.producers_iff d owner hcommand).mp hproducer)
    · rcases h.noSecondProducer d with heq | ⟨hnil, -⟩
      · simp [repaired_node, hnew] at heq
      · exact hnil
  · intro d hd p c hp hflag hfirst
    exact (hadded d hd p).mpr ⟨c, sorted.perm.mem_iff.mpr hp, hflag, hfirst⟩
  · intro d hd p hunder
    obtain ⟨c, hp, -, hfirst⟩ := (hadded d hd p).mp hunder
    exact ⟨(mem_outputsOf.mp (sorted.perm.mem_iff.mp hp)).2.2, hfirst⟩

theorem ordersReaders_of_repairable (h : file.Repairable owners) :
    file.OrdersReaders owners
      (repair owners file.directoryInputs sorted.outputNodesAndCommands file.objects) := by
  refine ⟨?_, ?_, ?_, ?_⟩
  · intro d c hd n owner hn hbelow
    left
    have hown : includedOwnerOf owners d = some owner := by
      cases hown : includedOwnerOf owners d with
      | none => exact absurd hbelow (includedOwnerOf_none.mp hown _ hn)
      | some other =>
        obtain ⟨m, hm, hmd⟩ := includedOwnerOf_some hown
        cases hrec.unique_match hn hm hbelow hmd
        rfl
    rw [repaired_node]
    by_cases hout : d ∈ (file.objects.command owner).outputs
    · exact mem_append_left _ ((file.producers_iff d owner (owner_participates hrec hown).1).mpr hout)
    · simp [(newProducer_iff hrec).mpr ⟨⟨c, hd⟩, hown, hout⟩]
  · intro c hc n hn hproducer
    rw [repaired_node] at hproducer
    rcases mem_append.mp hproducer with hold | hnew
    · exact hold
    · obtain ⟨⟨reader, hd⟩, hown, hout⟩ := (newProducer_iff hrec).mp (mem_toList.mp hnew)
      exact absurd hn (h.consumed n reader hd c hown hout).1
  · intro n
    simp only [repaired_node]
    cases hnew : newProducer owners file.objects file.directoryInputs n with
    | none => exact .inl (by simp)
    | some owner =>
      obtain ⟨⟨reader, hd⟩, hown, hout⟩ := (newProducer_iff hrec).mp hnew
      have hnil := (h.consumed n reader hd owner hown hout).2
      exact .inr ⟨hnil, owner, by simp [hnil]⟩
  · intro d hd
    refine ⟨_, by rw [repaired_node], fun p => ?_⟩
    rw [mem_added]
    constructor
    · rintro ⟨c, hp, hflag, hfirst⟩
      exact h.taken d hd p c (sorted.perm.mem_iff.mp hp) hflag hfirst
    · intro hunder
      obtain ⟨hreal, hfirst⟩ := h.under d hd p hunder
      obtain ⟨⟨c, hc, hparticipates, hout⟩, -⟩ := hunder
      exact ⟨c, sorted.perm.mem_iff.mpr (mem_outputsOf.mpr ⟨hc, hout, hreal⟩),
        (Bool.and_eq_true_iff.mp hparticipates).2, hfirst⟩

end Iff

end LoadedFile

/-- **Ownership repair orders readers after writers** exactly in the build files where an owner that becomes a
producer is no reader of the directory and its first producer, and where each output lies under the directory that
takes it and under no other unowned one. -/
theorem repair_ordersReaders_iff (file : LoadedFile) (sorted : SortedOutputs file.objects file.commands)
    (address : Name ↪ Nat) {owners : Owners}
    (hok : establishOwnerships file.objects address sorted.outputNodesAndCommands = .ok owners) :
    file.OrdersReaders owners (repair owners file.directoryInputs sorted.outputNodesAndCommands file.objects)
      ↔ file.Repairable owners :=
  ⟨LoadedFile.repairable_of_ordersReaders (recorded_of_ok hok),
    LoadedFile.ordersReaders_of_repairable (recorded_of_ok hok)⟩

/-- `w` writes `u/v/a`, `r` reads the directory `u/` and `s` reads another directory. -/
def nestedReaders (directory : Name) : LoadedFile where
  objects :=
    { node n :=
        { type := if n = name "u/" ∨ n = directory then .directory else .plain
          producers := if n = name "u/v/a" then [name "w"] else [] }
      command c :=
        if c = name "w" then { outputs := [name "u/v/a"] }
        else if c = name "r" then { inputs := [name "u/"] }
        else { inputs := [directory] } }
  commands := [name "w", name "r", name "s"]
  producers_iff := by
    have hne : name "r" ≠ name "w" ∧ name "s" ≠ name "w" ∧ name "s" ≠ name "r" := by decide
    intro n c hc
    simp only [mem_cons, not_mem_nil, or_false] at hc
    rcases hc with rfl | rfl | rfl
    · by_cases hn : n = name "u/v/a" <;> simp [hn]
    · by_cases hn : n = name "u/v/a" <;> simp [hn, hne]
    · by_cases hn : n = name "u/v/a" <;> simp [hn, hne]

/-- The owners in `nestedReaders`: the analysis only records the output. -/
def nestedOwners : Owners where
  includedPaths := [(name "u/v/a", name "w")]

/-- Where `s` reads `v/`, the output lies under one directory. -/
theorem nestedReaders_repairable : (nestedReaders (name "v/")).Repairable nestedOwners := by
  have hinputs : (nestedReaders (name "v/")).directoryInputs = [(name "u/", name "r"), (name "v/", name "s")] := by
    decide
  have houtputs : ∀ c ∈ [name "w", name "r", name "s"], ∀ p ∈ ((nestedReaders (name "v/")).objects.command c).outputs,
      p = name "u/v/a" := by decide
  have htakers : (nestedReaders (name "v/")).takers nestedOwners = [name "u/", name "v/"] := by decide
  have hunder : (nestedReaders (name "v/")).OutputUnder (name "u/") (name "u/v/a") :=
    ⟨⟨name "w", by decide, rfl, by decide⟩, by decide⟩
  have hunowned : ∀ d, (nestedReaders (name "v/")).UnownedInput nestedOwners d → d = name "u/" ∨ d = name "v/" := by
    rintro d ⟨-, c, hd, -⟩
    rw [hinputs] at hd
    simp only [mem_cons, Prod.mk.injEq, not_mem_nil, or_false] at hd
    exact hd.imp And.left And.left
  have hstarts : ∀ d, d = name "u/" ∨ d = name "v/" → d <+: name "u/v/a" → d = name "u/" := by
    rintro d (rfl | rfl) hstart
    · rfl
    · exact absurd hstart (by decide)
  refine ⟨?_, ?_, ?_⟩
  · intro d c hd owner hown
    have hnone : ∀ input ∈ (nestedReaders (name "v/")).directoryInputs, includedOwnerOf nestedOwners input.1 = none := by
      decide
    rw [hnone _ hd] at hown
    cases hown
  · intro d hd p c hp hflag hfirst
    obtain ⟨before, after, -, hstart, -⟩ := hfirst
    obtain ⟨hc, hout, -⟩ := mem_outputsOf.mp hp
    obtain rfl := houtputs c hc p hout
    obtain rfl := hstarts d (hunowned d hd) hstart
    exact hunder
  · rintro d hd p ⟨⟨c, hc, -, hout⟩, hbelow⟩
    obtain rfl := houtputs c hc p hout
    obtain rfl := hstarts d (hunowned d hd) hbelow.isPrefix
    exact ⟨rfl, [], [name "v/"], htakers, by decide, by simp⟩

theorem repair_ordersReaders_iff_nested :
    (nestedReaders (name "v/")).OrdersReaders nestedOwners
      (repair nestedOwners (nestedReaders (name "v/")).directoryInputs [(name "u/v/a", name "w")]
        (nestedReaders (name "v/")).objects) := by
  have hiff := repair_ordersReaders_iff (nestedReaders (name "v/"))
    ⟨[(name "u/v/a", name "w")], by decide, pairwise_singleton _ _⟩ someAddress
    (show establishOwnerships _ someAddress [(name "u/v/a", name "w")] = .ok nestedOwners from rfl)
  exact hiff.mpr nestedReaders_repairable

/-- Where `s` reads `u/v/`, the output lies under both directories, but only `u/` is scanned after it. -/
theorem repair_misses_nested_reader :
    ¬∀ (file : LoadedFile) (sorted : SortedOutputs file.objects file.commands) (address : Name ↪ Nat)
      (owners : Owners), establishOwnerships file.objects address sorted.outputNodesAndCommands = .ok owners →
      file.OrdersReaders owners (repair owners file.directoryInputs sorted.outputNodesAndCommands file.objects) := by
  intro h
  have horders := h (nestedReaders (name "u/v/")) ⟨[(name "u/v/a", name "w")], by decide, pairwise_singleton _ _⟩
    someAddress nestedOwners rfl
  have hunowned : (nestedReaders (name "u/v/")).UnownedInput nestedOwners (name "u/v/") :=
    ⟨by decide, name "s", by decide, rfl⟩
  obtain ⟨added, heq, hiff⟩ := horders.scannedAfter (name "u/v/") hunowned
  have hnone : added = [] := by
    have hpaths : ((repair nestedOwners (nestedReaders (name "u/v/")).directoryInputs [(name "u/v/a", name "w")]
        (nestedReaders (name "u/v/")).objects).node (name "u/v/")).mustScanAfterPaths = [] := by decide
    rw [hpaths] at heq
    exact (append_eq_nil_iff.mp heq.symm).2
  have hmem := (hiff (name "u/v/a")).mpr ⟨⟨name "w", by decide, rfl, by decide⟩, by decide⟩
  rw [hnone] at hmem
  cases hmem

end Ownership

end Builra
