import Builra.Ninja.BuildValue

namespace Builra

open List
open Bool hiding and_assoc or_assoc

/-!
# `Ninja.CommandTask` — when a Ninja command is updated without running

`NinjaCommandTask` from its start to `inputsAvailable`, which either completes the task or spawns the command. Status
lines are left out.
-/

namespace Ninja

/-! ## Timestamps -/

def before (lhs rhs : FileTimestamp) : Bool :=
  lhs.seconds < rhs.seconds || (lhs.seconds = rhs.seconds && lhs.nanoseconds < rhs.nanoseconds)

def notAfter (lhs rhs : FileTimestamp) : Bool :=
  lhs.seconds < rhs.seconds || (lhs.seconds = rhs.seconds && lhs.nanoseconds ≤ rhs.nanoseconds)

/-! ## The task -/

structure Node where
  canonicalPath : List UInt8
  screenPath : List UInt8
deriving DecidableEq

inductive DepsStyleKind where
  | none
  | gcc
  | msvc
deriving DecidableEq, Repr

structure Command where
  /-- Explicit, implicit and order-only inputs. -/
  inputs : List Node
  outputs : List Node
  isPhony : Bool
  depsStyle : DepsStyleKind
  isGenerator : Bool
  commandString : List UInt8
  outputs_ne_nil : outputs ≠ []
  outputs_length : outputs.length < 2 ^ 32

structure BuildContext where
  strict : Bool := false
  simulate : Bool := false
  numFailedCommandsToTolerate : Nat := 1
  isCancelled : Bool := false
  numCommandsUpdated : Nat := 0
  numBuiltCommands : Nat := 0
  numFailedCommands : Nat := 0
  errors : List (List UInt8) := []

/-- The bytes of a literal of the source. -/
def ascii (s : String) : List UInt8 := s.toList.map Char.toUInt8

namespace BuildContext

variable (context : BuildContext)

def emitError (message : List UInt8) : BuildContext :=
  { context with errors := context.errors ++ [message] }

def reportMissingInput (node : Node) : BuildContext :=
  context.emitError (ascii "missing input '" ++ node.screenPath ++ ascii "' and no rule to build it")

def incrementFailedCommands : BuildContext :=
  let context := { context with numFailedCommands := context.numFailedCommands + 1 }
  if context.numFailedCommandsToTolerate ≠ 0 ∧ context.numFailedCommands = context.numFailedCommandsToTolerate then
    { context.emitError (ascii "stopping build due to command failures") with isCancelled := true }
  else context

end BuildContext

structure NinjaCommandTask where
  shouldSkip : Bool := false
  hasMissingInput : Bool := false
  canUpdateIfNewer : Bool := true
  hasPriorResult : Bool := false
  priorCommandHash : CommandSignature := 0
  newestModTime : FileTimestamp := {}

/-- What a call of `inputsAvailable` comes to. -/
inductive Outcome where
  | complete (value : BuildValue) (forceChange : Bool)
  | spawn

/-- An input value; those of command tasks are singletons. -/
structure Delivery where
  inputID : InputID
  value : BuildValue
  single : value.hasMultipleOutputs = false

namespace NinjaCommandTask

variable (command : Command) (task : NinjaCommandTask)

def new : NinjaCommandTask := { canUpdateIfNewer := command.depsStyle = .none }

def provideValue (s : BuildContext × NinjaCommandTask) (delivery : Delivery) : BuildContext × NinjaCommandTask :=
  let (context, task) := s
  let value := delivery.value
  if !value.isExistingInput && !value.isSuccessfulCommand then
    let task := { task with shouldSkip := true }
    if value.isMissingInput then
      ((command.inputs[delivery.inputID]?).elim context context.reportMissingInput,
        { task with hasMissingInput := true })
    else (context, task)
  else
    let outputInfo := value.getOutputInfo
    if outputInfo.isMissing then (context, { task with canUpdateIfNewer := false })
    else if before task.newestModTime outputInfo.modTime then
      (context, { task with newestModTime := outputInfo.modTime })
    else (context, task)

def providePriorValue (value : BuildValue) : NinjaCommandTask :=
  if value.isSuccessfulCommand then
    { task with hasPriorResult := true, priorCommandHash := value.commandHash }
  else task

/-- The state of the files at a time, and the address of a new array. -/
structure World where
  getInfoForPath : List UInt8 → FileInfo
  address : UInt64

def computeCommandResult (world : World) (commandHash : CommandSignature) : BuildValue :=
  let outputInfos := command.outputs.map (fun output => world.getInfoForPath output.canonicalPath)
  if several : 1 < outputInfos.length then
    BuildValue.makeSuccessfulCommands world.address outputInfos commandHash several
      (by rw [List.length_map]; exact command.outputs_length)
  else
    BuildValue.makeSuccessfulCommand (outputInfos.head (fun h => command.outputs_ne_nil (List.map_eq_nil_iff.mp h)))
      commandHash

def canUpdateIfNewerWithResult (strict : Bool) (result : BuildValue) : Bool :=
  result.getOutputInfos.all (fun outputInfo =>
    !outputInfo.isMissing &&
      if strict then !notAfter outputInfo.modTime task.newestModTime
      else !before outputInfo.modTime task.newestModTime)

/-- The part of `inputsAvailable` that does not update the command; `none` while the build is simulated is skipped. -/
def execute (context : BuildContext) : BuildContext × Outcome :=
  let context := { context with numBuiltCommands := context.numBuiltCommands + 1 }
  if context.simulate then (context, .complete BuildValue.makeSkippedCommand false)
  else if task.shouldSkip then
    let context :=
      if task.hasMissingInput then
        (context.emitError (ascii "cannot build '" ++ (command.outputs.head command.outputs_ne_nil).screenPath ++
          ascii "' due to missing input")).incrementFailedCommands
      else context
    (context, .complete BuildValue.makeSkippedCommand false)
  else (context, .spawn)

variable (hash : List UInt8 → CommandSignature)

def inputsAvailable (world : World) (context : BuildContext) : BuildContext × Outcome :=
  if context.isCancelled then (context, .complete BuildValue.makeSkippedCommand false)
  else
    let commandHash := hash command.commandString
    if command.isPhony then
      let result := computeCommandResult command world commandHash
      (context, .complete result (result.getOutputInfos.any FileInfo.isMissing))
    else
      let canUpdateIfNewer := task.canUpdateIfNewer &&
        !(!command.isGenerator && (!task.hasPriorResult || task.priorCommandHash ≠ commandHash))
      let result := computeCommandResult command world commandHash
      if canUpdateIfNewer && task.canUpdateIfNewerWithResult context.strict result then
        ({ context with numCommandsUpdated := context.numCommandsUpdated + 1 }, .complete result false)
      else task.execute command context

/-- The calls of the engine: the prior value if there is one, the values of the inputs, and that all are there. -/
def run (world : World) (context : BuildContext) (prior : Option BuildValue) (deliveries : List Delivery) :
    BuildContext × Outcome :=
  let task := prior.elim (new command) (providePriorValue (new command))
  let (context, task) := deliveries.foldl (provideValue command) (context, task)
  task.inputsAvailable command hash world context

/-! ## What the inputs leave behind -/

/-- An existing input or a successful command. -/
def usable (value : BuildValue) : Bool := value.isExistingInput || value.isSuccessfulCommand

/-- A timestamp as one number. -/
def stamp (t : FileTimestamp) : Nat := t.seconds.toNat * 2 ^ 64 + t.nanoseconds.toNat

theorem before_iff {a b : FileTimestamp} : before a b = true ↔ stamp a < stamp b := by
  have ha := a.nanoseconds.toNat_lt
  have hb := b.nanoseconds.toNat_lt
  unfold before stamp
  simp only [or_eq_true, and_eq_true, decide_eq_true_eq, UInt64.lt_iff_toNat_lt, ← UInt64.toNat_inj]
  omega

theorem notAfter_iff {a b : FileTimestamp} : notAfter a b = true ↔ stamp a ≤ stamp b := by
  have ha := a.nanoseconds.toNat_lt
  have hb := b.nanoseconds.toNat_lt
  unfold notAfter stamp
  simp only [or_eq_true, and_eq_true, decide_eq_true_eq, UInt64.lt_iff_toNat_lt, UInt64.le_iff_toNat_le,
    ← UInt64.toNat_inj]
  omega

/-- The values of some inputs took a task from one state to another. -/
structure Delivered (start task : NinjaCommandTask) (deliveries : List Delivery) : Prop where
  shouldSkip : task.shouldSkip = true ↔ start.shouldSkip = true ∨ ∃ d ∈ deliveries, usable d.value = false
  canUpdateIfNewer : task.canUpdateIfNewer = true ↔ start.canUpdateIfNewer = true ∧
    ∀ d ∈ deliveries, usable d.value = true → d.value.getOutputInfo.isMissing = false
  hasPriorResult : task.hasPriorResult = start.hasPriorResult
  priorCommandHash : task.priorCommandHash = start.priorCommandHash
  newest : task.newestModTime = start.newestModTime ∨
    ∃ d ∈ deliveries, usable d.value = true ∧ task.newestModTime = d.value.getOutputInfo.modTime
  newest_ge : stamp start.newestModTime ≤ stamp task.newestModTime
  newest_ge_of : ∀ d ∈ deliveries, usable d.value = true → d.value.getOutputInfo.isMissing = false →
    stamp d.value.getOutputInfo.modTime ≤ stamp task.newestModTime

theorem Delivered.refl (task : NinjaCommandTask) : Delivered task task [] where
  shouldSkip := by simp
  canUpdateIfNewer := by simp
  hasPriorResult := rfl
  priorCommandHash := rfl
  newest := .inl rfl
  newest_ge := Nat.le_refl _
  newest_ge_of := fun _ hd => nomatch hd

theorem Delivered.trans {start task last : NinjaCommandTask} {l l' : List Delivery} (h : Delivered start task l)
    (h' : Delivered task last l') : Delivered start last (l ++ l') where
  shouldSkip := by
    rw [h'.shouldSkip, h.shouldSkip, or_assoc]
    simp only [mem_append, or_and_right, exists_or]
  canUpdateIfNewer := by
    rw [h'.canUpdateIfNewer, h.canUpdateIfNewer, and_assoc, forall_mem_append]
  hasPriorResult := h'.hasPriorResult.trans h.hasPriorResult
  priorCommandHash := h'.priorCommandHash.trans h.priorCommandHash
  newest := by
    rcases h'.newest with heq | ⟨d, hd, husable, heq⟩
    · rw [heq]
      rcases h.newest with heq | ⟨d, hd, husable, heq⟩
      · exact .inl heq
      · exact .inr ⟨d, mem_append_left _ hd, husable, heq⟩
    · exact .inr ⟨d, mem_append_right _ hd, husable, heq⟩
  newest_ge := Nat.le_trans h.newest_ge h'.newest_ge
  newest_ge_of := by
    intro d hd husable hfile
    rcases mem_append.mp hd with hd | hd
    · exact Nat.le_trans (h.newest_ge_of d hd husable hfile) h'.newest_ge
    · exact h'.newest_ge_of d hd husable hfile

section

variable (command : Command)

theorem provideValue_unusable {d : Delivery} (h : usable d.value = false) (context : BuildContext)
    (task : NinjaCommandTask) : ∃ hasMissingInput, (provideValue command (context, task) d).2
      = { task with shouldSkip := true, hasMissingInput := hasMissingInput } := by
  have hskip : (!d.value.isExistingInput && !d.value.isSuccessfulCommand) = true := by
    rw [← Bool.not_or]
    exact congrArg not h
  unfold provideValue
  simp only [hskip, if_true]
  by_cases hmissing : d.value.isMissingInput = true
  · rw [if_pos hmissing]
    exact ⟨true, rfl⟩
  · rw [if_neg hmissing]
    exact ⟨task.hasMissingInput, rfl⟩

theorem provideValue_usable {d : Delivery} (h : usable d.value = true) (context : BuildContext)
    (task : NinjaCommandTask) : (provideValue command (context, task) d).2
      = if d.value.getOutputInfo.isMissing = true then { task with canUpdateIfNewer := false }
        else if before task.newestModTime d.value.getOutputInfo.modTime = true then
          { task with newestModTime := d.value.getOutputInfo.modTime }
        else task := by
  have hskip : (!d.value.isExistingInput && !d.value.isSuccessfulCommand) = false := by
    rw [← Bool.not_or]
    exact congrArg not h
  unfold provideValue
  simp only [hskip, false_eq_true, if_false]
  split
  · rfl
  · split
    · rfl
    · rfl

theorem delivered_provideValue (context : BuildContext) (task : NinjaCommandTask) (d : Delivery) :
    Delivered task (provideValue command (context, task) d).2 [d] := by
  cases husable : usable d.value with
  | false =>
    obtain ⟨hasMissingInput, heq⟩ := provideValue_unusable command husable context task
    rw [heq]
    exact
      { shouldSkip := by simp [husable]
        canUpdateIfNewer := by simp [husable]
        hasPriorResult := rfl
        priorCommandHash := rfl
        newest := .inl rfl
        newest_ge := Nat.le_refl _
        newest_ge_of := by simp [husable] }
  | true =>
    rw [provideValue_usable command husable]
    cases hmissing : d.value.getOutputInfo.isMissing with
    | true =>
      rw [if_pos rfl]
      exact
        { shouldSkip := by simp [husable]
          canUpdateIfNewer := by simp [husable, hmissing]
          hasPriorResult := rfl
          priorCommandHash := rfl
          newest := .inl rfl
          newest_ge := Nat.le_refl _
          newest_ge_of := by simp [hmissing] }
    | false =>
      rw [if_neg Bool.false_ne_true]
      by_cases hnewer : before task.newestModTime d.value.getOutputInfo.modTime = true
      · rw [if_pos hnewer]
        exact
          { shouldSkip := by simp [husable]
            canUpdateIfNewer := by simp [hmissing]
            hasPriorResult := rfl
            priorCommandHash := rfl
            newest := .inr ⟨d, mem_singleton_self d, husable, rfl⟩
            newest_ge := Nat.le_of_lt (before_iff.mp hnewer)
            newest_ge_of := fun e he _ _ => by rw [mem_singleton.mp he] }
      · rw [if_neg hnewer]
        exact
          { shouldSkip := by simp [husable]
            canUpdateIfNewer := by simp [hmissing]
            hasPriorResult := rfl
            priorCommandHash := rfl
            newest := .inl rfl
            newest_ge := Nat.le_refl _
            newest_ge_of := fun e he _ _ => by
              rw [mem_singleton.mp he]
              exact Nat.le_of_not_lt (fun hlt => hnewer (before_iff.mpr hlt)) }

/-- What a build is asked for does not change with its inputs. -/
structure SameMode (context context' : BuildContext) : Prop where
  strict : context'.strict = context.strict
  simulate : context'.simulate = context.simulate
  isCancelled : context'.isCancelled = context.isCancelled

theorem sameMode_provideValue (context : BuildContext) (task : NinjaCommandTask) (d : Delivery) :
    SameMode context (provideValue command (context, task) d).1 := by
  unfold provideValue
  simp only
  split
  · split
    · cases command.inputs[d.inputID]? with
      | none => exact ⟨rfl, rfl, rfl⟩
      | some node => exact ⟨rfl, rfl, rfl⟩
    · exact ⟨rfl, rfl, rfl⟩
  · split
    · exact ⟨rfl, rfl, rfl⟩
    · split
      · exact ⟨rfl, rfl, rfl⟩
      · exact ⟨rfl, rfl, rfl⟩

theorem foldl_provideValue (context : BuildContext) (task : NinjaCommandTask) (deliveries : List Delivery) :
    Delivered task (deliveries.foldl (provideValue command) (context, task)).2 deliveries ∧
      SameMode context (deliveries.foldl (provideValue command) (context, task)).1 := by
  induction deliveries generalizing context task with
  | nil => exact ⟨Delivered.refl task, rfl, rfl, rfl⟩
  | cons d deliveries ih =>
    have hstep := delivered_provideValue command context task d
    have hmode := sameMode_provideValue command context task d
    obtain ⟨hrest, hrestMode⟩ := ih (provideValue command (context, task) d).1 (provideValue command (context, task) d).2
    exact ⟨hstep.trans hrest, hrestMode.strict.trans hmode.strict, hrestMode.simulate.trans hmode.simulate,
      hrestMode.isCancelled.trans hmode.isCancelled⟩

/-! ## When the command is updated -/

/-- As the mode of the build asks for: newer, or not older. -/
def newer (strict : Bool) (input output : FileTimestamp) : Prop :=
  stamp input + (if strict then 1 else 0) ≤ stamp output

/-- The command can be brought up to date, whatever inputs could not be used. -/
structure Updatable (hash : List UInt8 → CommandSignature) (world : World) (strict : Bool) (command : Command)
    (prior : Option BuildValue) (deliveries : List Delivery) : Prop where
  depsStyle : command.depsStyle = .none
  prior : command.isGenerator = true ∨
    ∃ p, prior = some p ∧ p.isSuccessfulCommand = true ∧ p.commandHash = hash command.commandString
  files : ∀ d ∈ deliveries, usable d.value = true → d.value.getOutputInfo.isMissing = false
  outputs : ∀ output ∈ command.outputs, (world.getInfoForPath output.canonicalPath).isMissing = false ∧
    newer strict {} (world.getInfoForPath output.canonicalPath).modTime ∧
    ∀ d ∈ deliveries, usable d.value = true →
      newer strict d.value.getOutputInfo.modTime (world.getInfoForPath output.canonicalPath).modTime

theorem computeCommandResult_spec (world : World) (commandHash : CommandSignature) :
    (computeCommandResult command world commandHash).getOutputInfos
        = command.outputs.map (fun output => world.getInfoForPath output.canonicalPath) ∧
      (computeCommandResult command world commandHash).isSuccessfulCommand = true := by
  unfold computeCommandResult
  simp only
  by_cases several : 1 < (command.outputs.map (fun output => world.getInfoForPath output.canonicalPath)).length
  · rw [dif_pos several]
    have hbounded : (command.outputs.map (fun output => world.getInfoForPath output.canonicalPath)).length < 2 ^ 32 := by
      rw [length_map]
      exact command.outputs_length
    exact ⟨if_pos (decide_eq_true (BuildValue.one_lt_ofNat several hbounded)), rfl⟩
  · rw [dif_neg several]
    refine ⟨?_, rfl⟩
    obtain ⟨output, houtput⟩ : ∃ output, command.outputs = [output] := by
      refine length_eq_one_iff.mp ?_
      have hpos := length_pos_iff.mpr command.outputs_ne_nil
      rw [length_map] at several
      omega
    show [_] = _
    simp only [houtput, map_cons, map_nil, head_cons]
    rfl

theorem canUpdateIfNewerWithResult_iff {task : NinjaCommandTask} {strict : Bool} {result : BuildValue} :
    task.canUpdateIfNewerWithResult strict result = true ↔
      ∀ info ∈ result.getOutputInfos, info.isMissing = false ∧ newer strict task.newestModTime info.modTime := by
  rw [canUpdateIfNewerWithResult, all_eq_true]
  refine forall₂_congr (fun info _ => ?_)
  rw [and_eq_true, not_eq_true']
  refine and_congr_right (fun _ => ?_)
  unfold newer
  cases strict with
  | true =>
    rw [if_pos rfl, if_pos rfl, not_eq_true', ← not_eq_true, notAfter_iff]
    omega
  | false =>
    rw [if_neg Bool.false_ne_true, if_neg Bool.false_ne_true, Bool.not_eq_true', ← Bool.not_eq_true, before_iff]
    omega

/-- The outputs are newer than the newest of the inputs just if they are newer than each. -/
theorem Delivered.newer_iff {start task : NinjaCommandTask} {deliveries : List Delivery}
    (h : Delivered start task deliveries)
    (hfiles : ∀ d ∈ deliveries, usable d.value = true → d.value.getOutputInfo.isMissing = false) {strict : Bool}
    {output : FileTimestamp} : newer strict task.newestModTime output ↔ newer strict start.newestModTime output ∧
      ∀ d ∈ deliveries, usable d.value = true → newer strict d.value.getOutputInfo.modTime output := by
  unfold newer
  constructor
  · intro hnewest
    refine ⟨?_, fun d hd husable => ?_⟩
    · have := h.newest_ge
      omega
    · have := h.newest_ge_of d hd husable (hfiles d hd husable)
      omega
  · rintro ⟨hstart, heach⟩
    rcases h.newest with heq | ⟨d, hd, husable, heq⟩
    · rw [heq]
      exact hstart
    · rw [heq]
      exact heach d hd husable

/-- The task when its inputs are requested. -/
theorem prior_spec (prior : Option BuildValue) (commandHash : CommandSignature) :
    let task := prior.elim (new command) (providePriorValue (new command))
    (task.canUpdateIfNewer = true ↔ command.depsStyle = .none) ∧ task.newestModTime = {} ∧ task.shouldSkip = false ∧
      (task.hasPriorResult = true ∧ task.priorCommandHash = commandHash ↔
        ∃ p, prior = some p ∧ p.isSuccessfulCommand = true ∧ p.commandHash = commandHash) := by
  cases prior with
  | none => exact ⟨decide_eq_true_iff, rfl, rfl, by simp [new]⟩
  | some p =>
    simp only [Option.elim_some, providePriorValue]
    by_cases hp : p.isSuccessfulCommand = true
    · rw [if_pos hp]
      exact ⟨decide_eq_true_iff, rfl, rfl, by simp [hp]⟩
    · rw [if_neg hp]
      exact ⟨decide_eq_true_iff, rfl, rfl, by simp [new, hp]⟩

end

section

variable {command : Command} (hash : List UInt8 → CommandSignature) (world : World) {context : BuildContext}
  {prior : Option BuildValue} {deliveries : List Delivery}

/-- The task as the values of its inputs leave it is updated just if the command can be. -/
theorem updates_iff (strict : Bool) {task : NinjaCommandTask}
    (h : Delivered (prior.elim (new command) (providePriorValue (new command))) task deliveries) :
    ((task.canUpdateIfNewer && !(!command.isGenerator &&
          (!task.hasPriorResult || task.priorCommandHash ≠ hash command.commandString))) &&
        task.canUpdateIfNewerWithResult strict (computeCommandResult command world (hash command.commandString))) = true
      ↔ Updatable hash world strict command prior deliveries := by
  obtain ⟨hdeps, hnewest, -, hprior⟩ := prior_spec command prior (hash command.commandString)
  have hmatch : (!(!command.isGenerator &&
      (!task.hasPriorResult || task.priorCommandHash ≠ hash command.commandString))) = true ↔
        command.isGenerator = true ∨ (task.hasPriorResult = true ∧ task.priorCommandHash = hash command.commandString) := by
    simp [or_iff_not_imp_left]
  rw [h.hasPriorResult, h.priorCommandHash] at hmatch
  rw [h.hasPriorResult, h.priorCommandHash, and_eq_true, and_eq_true, hmatch, hprior, h.canUpdateIfNewer, hdeps,
    canUpdateIfNewerWithResult_iff, (computeCommandResult_spec command world _).1, forall_mem_map]
  constructor
  · rintro ⟨⟨⟨hstyle, hfiles⟩, hgenerator⟩, houtputs⟩
    refine ⟨hstyle, hgenerator, hfiles, fun output houtput => ?_⟩
    obtain ⟨hexists, hnew⟩ := houtputs output houtput
    rw [h.newer_iff hfiles, hnewest] at hnew
    exact ⟨hexists, hnew⟩
  · intro hupdatable
    refine ⟨⟨⟨hupdatable.depsStyle, hupdatable.files⟩, hupdatable.prior⟩, fun output houtput => ?_⟩
    obtain ⟨hexists, hnew⟩ := hupdatable.outputs output houtput
    rw [h.newer_iff hupdatable.files, hnewest]
    exact ⟨hexists, hnew⟩

/-- What the task comes to, by whether the command can be updated and whether some input cannot be used. -/
theorem run_spec (prior : Option BuildValue) (deliveries : List Delivery) (hphony : command.isPhony = false) (hsimulate : context.simulate = false)
    (hcancelled : context.isCancelled = false) :
    (Updatable hash world context.strict command prior deliveries →
      (run command hash world context prior deliveries).2
        = .complete (computeCommandResult command world (hash command.commandString)) false) ∧
    (¬ Updatable hash world context.strict command prior deliveries →
      ((∃ d ∈ deliveries, usable d.value = false) →
        (run command hash world context prior deliveries).2 = .complete BuildValue.makeSkippedCommand false) ∧
      ((∀ d ∈ deliveries, usable d.value = true) → (run command hash world context prior deliveries).2 = .spawn)) := by
  obtain ⟨-, -, hskip, -⟩ := prior_spec command prior (hash command.commandString)
  obtain ⟨hdelivered, hmode⟩ := foldl_provideValue command context
    (prior.elim (new command) (providePriorValue (new command))) deliveries
  have hrun : run command hash world context prior deliveries = inputsAvailable command
      (deliveries.foldl (provideValue command)
        (context, prior.elim (new command) (providePriorValue (new command)))).2 hash world
      (deliveries.foldl (provideValue command)
        (context, prior.elim (new command) (providePriorValue (new command)))).1 := rfl
  rw [hrun]
  generalize deliveries.foldl (provideValue command)
    (context, prior.elim (new command) (providePriorValue (new command))) = s at hdelivered hmode
  have hupdates := updates_iff hash world s.1.strict hdelivered
  rw [hmode.strict] at hupdates
  have hnot : s.1.isCancelled = false := hmode.isCancelled.trans hcancelled
  have hreal : s.1.simulate = false := hmode.simulate.trans hsimulate
  unfold inputsAvailable
  simp only [hnot, hphony, false_eq_true, if_false, hmode.strict]
  constructor
  · intro hupdatable
    rw [if_pos (hupdates.mpr hupdatable)]
  · intro hnotUpdatable
    rw [if_neg (fun h => hnotUpdatable (hupdates.mp h))]
    unfold execute
    simp only [hreal, false_eq_true, if_false]
    constructor
    · intro hbad
      rw [if_pos (hdelivered.shouldSkip.mpr (.inr hbad))]
    · intro hgood
      rw [if_neg]
      intro h
      rcases hdelivered.shouldSkip.mp h with hstart | ⟨d, hd, hbad⟩
      · rw [hskip] at hstart
        cases hstart
      · rw [hgood d hd] at hbad
        cases hbad

/-- The command is updated without running only when that is safe, and skipped when an input cannot be used. -/
structure UpdatesSafely (hash : List UInt8 → CommandSignature) (world : World) (strict : Bool) (command : Command)
    (prior : Option BuildValue) (deliveries : List Delivery) (outcome : Outcome) : Prop where
  updated : ∀ value forceChange, outcome = .complete value forceChange → value.isSuccessfulCommand = true →
    (∀ d ∈ deliveries, usable d.value = true ∧ d.value.getOutputInfo.isMissing = false) ∧
    (∀ output ∈ command.outputs, (world.getInfoForPath output.canonicalPath).isMissing = false ∧
      ∀ d ∈ deliveries,
        newer strict d.value.getOutputInfo.modTime (world.getInfoForPath output.canonicalPath).modTime) ∧
    (command.isGenerator = false →
      ∃ p, prior = some p ∧ p.isSuccessfulCommand = true ∧ p.commandHash = hash command.commandString)
  skipped : (∃ d ∈ deliveries, usable d.value = false) →
    ∃ value forceChange, outcome = .complete value forceChange ∧ value.kind = .skippedCommand

/-- A command with an input that cannot be used must not be one that could be updated otherwise. -/
theorem updatesSafely_iff (hash : List UInt8 → CommandSignature) (world : World) (context : BuildContext)
    (command : Command) (prior : Option BuildValue) (deliveries : List Delivery) (hphony : command.isPhony = false)
    (hsimulate : context.simulate = false) (hcancelled : context.isCancelled = false) :
    UpdatesSafely hash world context.strict command prior deliveries
        (run command hash world context prior deliveries).2 ↔
      ((∃ d ∈ deliveries, usable d.value = false) →
        ¬ Updatable hash world context.strict command prior deliveries) := by
  obtain ⟨hupdate, hrest⟩ := run_spec hash world prior deliveries hphony hsimulate hcancelled
  constructor
  · rintro ⟨-, hskipped⟩ hbad hupdatable
    obtain ⟨value, forceChange, houtcome, hkind⟩ := hskipped hbad
    rw [hupdate hupdatable, Outcome.complete.injEq] at houtcome
    have hsuccess := (computeCommandResult_spec command world (hash command.commandString)).2
    rw [houtcome.1, BuildValue.isSuccessfulCommand, hkind] at hsuccess
    revert hsuccess
    decide
  · intro hcondition
    by_cases hbad : ∃ d ∈ deliveries, usable d.value = false
    · have hskipped := (hrest (hcondition hbad)).1 hbad
      refine ⟨fun value forceChange houtcome hsuccess => ?_, fun _ => ⟨_, _, hskipped, rfl⟩⟩
      rw [hskipped, Outcome.complete.injEq] at houtcome
      rw [← houtcome.1] at hsuccess
      cases hsuccess
    · have hgood : ∀ d ∈ deliveries, usable d.value = true :=
        fun d hd => not_eq_false _ |>.mp (fun h => hbad ⟨d, hd, h⟩)
      refine ⟨fun value forceChange houtcome hsuccess => ?_, fun h => absurd h hbad⟩
      by_cases hupdatable : Updatable hash world context.strict command prior deliveries
      · refine ⟨fun d hd => ⟨hgood d hd, hupdatable.files d hd (hgood d hd)⟩, fun output houtput => ?_, fun h => ?_⟩
        · obtain ⟨hexists, -, hnewer⟩ := hupdatable.outputs output houtput
          exact ⟨hexists, fun d hd => hnewer d hd (hgood d hd)⟩
        · exact hupdatable.prior.resolve_left (fun hgenerator => false_ne_true (h.symm.trans hgenerator))
      · rw [(hrest hupdatable).2 hgood] at houtcome
        cases houtcome

end

/-! ## An input that failed -/

/-- `a.o` from `a.c`. -/
def compile : Command where
  inputs := [⟨ascii "a.c", ascii "a.c"⟩]
  outputs := [⟨ascii "a.o", ascii "a.o"⟩]
  isPhony := false
  depsStyle := .none
  isGenerator := false
  commandString := ascii "cc"
  outputs_ne_nil := List.cons_ne_nil _ _
  outputs_length := by decide

/-- All files exist. -/
def everyFile : World := ⟨fun _ => { device := 1 }, 0⟩

def failedInput : Delivery := ⟨0, BuildValue.makeFailedCommand, rfl⟩

theorem updatesSafely_iff_compile :
    UpdatesSafely (fun _ => 7) everyFile false compile none [failedInput]
        (run compile (fun _ => 7) everyFile {} none [failedInput]).2 ↔
      ((∃ d ∈ [failedInput], usable d.value = false) → ¬ Updatable (fun _ => 7) everyFile false compile none [failedInput]) :=
  updatesSafely_iff (fun _ => 7) everyFile {} compile none [failedInput] rfl rfl rfl

theorem failedInput_updated : ¬ ∀ (hash : List UInt8 → CommandSignature) (world : World) (context : BuildContext)
    (command : Command) (prior : Option BuildValue) (deliveries : List Delivery), command.isPhony = false →
      context.simulate = false → context.isCancelled = false →
        UpdatesSafely hash world context.strict command prior deliveries
          (run command hash world context prior deliveries).2 := by
  intro h
  obtain ⟨value, forceChange, houtcome, hkind⟩ :=
    (h (fun _ => 7) everyFile {} compile (some (BuildValue.makeSuccessfulCommand {} 7)) [failedInput] rfl rfl rfl).skipped
      ⟨failedInput, mem_singleton_self _, rfl⟩
  have hupdated : (run compile (fun _ => 7) everyFile {} (some (BuildValue.makeSuccessfulCommand {} 7)) [failedInput]).2
      = .complete (BuildValue.makeSuccessfulCommand { device := 1 } 7) false := rfl
  rw [hupdated, Outcome.complete.injEq] at houtcome
  rw [← houtcome.1] at hkind
  cases hkind

end NinjaCommandTask

end Ninja

end Builra
