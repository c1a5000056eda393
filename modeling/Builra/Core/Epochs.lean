import Builra.Core.Accounting

namespace Builra

open Machine RuleInfo Option

/-!
# `Core.Epochs` — `computedAt ≤ builtAt ≤ currentEpoch`

`taskIsComplete` writes `computedAt` at once; `builtAt` follows when the loop of `executeTasks` pops the
finished task. Inside a build the two may be out of order for a rule in progress, and only there (`Dated`).
A build that is cancelled between the two leaves them so: `cancelRemainingTasks` throws the completion away
and keeps the result. `Session` strings builds, cancellations and reloads of the database together.
-/

variable {T W : Type} {c : Client T W} {w : W}

open Engine

/-- The epochs of every rule are in order. -/
structure Epochs (e : Engine T) : Prop where
  computed : ∀ k, (e.ruleInfos k).result.computedAt ≤ (e.ruleInfos k).result.builtAt
  built : ∀ k, (e.ruleInfos k).result.builtAt ≤ e.currentEpoch

/-- The epochs of every stored result are in order. -/
def StoredEpochs (e : Engine T) : Prop :=
  ∀ db k r, e.db = some db → db.results k = some r →
    r.computedAt ≤ r.builtAt ∧ r.builtAt ≤ e.currentEpoch

/-- Inside a build: what is built in this epoch is complete, and a result that is newer than its `builtAt`
    was stored in this epoch by a rule still in progress. -/
structure Dated (e : Engine T) : Prop where
  built : ∀ k, (e.ruleInfos k).result.builtAt < e.currentEpoch ∨
    ((e.ruleInfos k).state = .complete ∧ (e.ruleInfos k).result.builtAt = e.currentEpoch)
  computed : ∀ k, (e.ruleInfos k).result.computedAt ≤ (e.ruleInfos k).result.builtAt ∨
    ((e.ruleInfos k).result.computedAt = e.currentEpoch ∧ (e.ruleInfos k).isInProgress = true)
  stored : StoredEpochs e

/-! ## Moves -/

variable {e e' : Engine T} {k : KeyType}

theorem Dated.built_le (hd : Dated e) (k : KeyType) :
    (e.ruleInfos k).result.builtAt ≤ e.currentEpoch := by
  rcases hd.built k with h | ⟨-, h⟩
  · exact le_of_lt h
  · exact le_of_eq h

theorem Dated.computed_le (hd : Dated e) (k : KeyType) :
    (e.ruleInfos k).result.computedAt ≤ e.currentEpoch := by
  rcases hd.computed k with h | ⟨h, -⟩
  · exact h.trans (hd.built_le k)
  · exact le_of_eq h

theorem Dated.ordered_of_not_inProgress (hd : Dated e) (hp : (e.ruleInfos k).isInProgress = false) :
    (e.ruleInfos k).result.computedAt ≤ (e.ruleInfos k).result.builtAt := by
  rcases hd.computed k with h | ⟨-, h⟩
  · exact h
  · rw [hp] at h
    exact absurd h (by simp)

theorem Dated.built_lt (hd : Dated e) (hk : ¬ (e.ruleInfos k).Done e.currentEpoch) :
    (e.ruleInfos k).result.builtAt < e.currentEpoch := by
  rcases hd.built k with h | ⟨hs, hb⟩
  · exact h
  · exact absurd (by simp [RuleInfo.Done, isComplete, hs, hb]) hk

theorem storeValue_epochs (signature : CommandSignature) (currentEpoch : Epoch) (value : ValueType)
    (forceChange : Bool) (result : Result) :
    (storeValue signature currentEpoch value forceChange result).builtAt = result.builtAt ∧
      ((storeValue signature currentEpoch value forceChange result).computedAt = result.computedAt ∨
        (storeValue signature currentEpoch value forceChange result).computedAt = currentEpoch) := by
  unfold storeValue
  dsimp only
  split_ifs
  · exact ⟨rfl, .inl rfl⟩
  · exact ⟨rfl, .inr rfl⟩

/-- The epochs of one rule inside a build. -/
def RuleInfo.Dated (r : RuleInfo) (currentEpoch : Epoch) : Prop :=
  (r.result.builtAt < currentEpoch ∨ (r.state = .complete ∧ r.result.builtAt = currentEpoch)) ∧
    (r.result.computedAt ≤ r.result.builtAt ∨
      (r.result.computedAt = currentEpoch ∧ r.isInProgress = true))

/-- A completion dates the result ahead of `builtAt`, of a rule in progress. -/
theorem Dated.store (hd : Dated e) (signature : CommandSignature) (value : ValueType) (forceChange : Bool)
    (hc : (e.ruleInfos k).isInProgressComputing = true) :
    RuleInfo.Dated
      { e.ruleInfos k with
        result := storeValue signature e.currentEpoch value forceChange (e.ruleInfos k).result }
      e.currentEpoch := by
  have hp : (e.ruleInfos k).isInProgress = true := by simp [isInProgress, hc]
  have hlt : (e.ruleInfos k).result.builtAt < e.currentEpoch := by
    refine hd.built_lt (fun hdone => ?_)
    simp only [isInProgressComputing, decide_eq_true_eq] at hc
    simp [RuleInfo.Done, isComplete, hc] at hdone
  obtain ⟨hb, hc⟩ := storeValue_epochs signature e.currentEpoch value forceChange (e.ruleInfos k).result
  refine ⟨.inl (hb.trans_lt hlt), ?_⟩
  rcases hc with hc | hc
  · exact (hd.computed k).imp (fun h => (hc.trans_le h).trans_eq hb.symm) (fun h => ⟨hc.trans h.1, hp⟩)
  · exact .inr ⟨hc, hp⟩

/-- One write to a rule keeps its epochs in order. -/
theorem RuleMove.dated {r : RuleInfo} (hm : RuleMove c w e k r) (hd : Dated e) : r.Dated e.currentEpoch := by
  have hlt := hd.built_lt hm.not_done
  have hle := hd.computed_le k
  cases hm with
  | clean hu | scanNeedsToRun hu _ =>
    exact ⟨.inl hlt, .inl (hd.ordered_of_not_inProgress (isInProgress_of_untouched hu))⟩
  | scanUpToDate hu _ _ | scanScheduled hu _ _ _ =>
    exact ⟨.inl hlt, .inl (hd.ordered_of_not_inProgress (isInProgress_of_untouched hu))⟩
  | addToRecord _ hs _ | finishScan _ hs _ | force hs _ =>
    exact ⟨.inl hlt, .inl (hd.ordered_of_not_inProgress (isInProgress_of_scanning hs))⟩
  | markUpToDate _ | complete _ _ => exact ⟨.inr ⟨rfl, rfl⟩, .inl hle⟩
  | register hs =>
    refine ⟨.inl hlt, .inl (hd.ordered_of_not_inProgress ?_)⟩
    simp [isInProgress, isInProgressWaiting, isInProgressComputing, hs]
  | recordDependency _ hp => exact ⟨.inl hlt, (hd.computed k).imp id (fun h => ⟨h.1, hp⟩)⟩
  | compute _ =>
    refine ⟨.inl hlt, (hd.computed k).imp id (fun h => ⟨h.1, ?_⟩)⟩
    simp [isInProgress, isInProgressComputing]
  | store value forceChange hc => exact hd.store (c.signature k) value forceChange hc

theorem Dated.of_ruleFrame (hd : Dated e) (hf : RuleFrame c w e e') (hs : StoredEpochs e') : Dated e' := by
  obtain ⟨he, -, hr⟩ := hf
  refine ⟨fun k => ?_, fun k => ?_, hs⟩
  · rcases hr k with heq | hmove
    · rw [heq, he]
      exact hd.built k
    · rw [he]
      exact (hmove.dated hd).1
  · rcases hr k with heq | hmove
    · rw [heq, he]
      exact hd.computed k
    · rw [he]
      exact (hmove.dated hd).2

/-- Only a finished task is written to the database. -/
theorem Micro.db_eq {h h' : Held} (hm : Micro c w (e, h) (e', h')) :
    e'.db = e.db ∨ ∃ ti : TaskInfo T, (e'.ruleInfos ti.forRuleInfo).result.builtAt = e.currentEpoch ∧
      (e'.ruleInfos ti.forRuleInfo).result.computedAt = (e.ruleInfos ti.forRuleInfo).result.computedAt ∧
      e'.db = e.db.map (fun db =>
        setRuleResult db ti.forRuleInfo (e'.ruleInfos ti.forRuleInfo).result) := by
  cases hm with
  | decrement request t ti _ _ _ =>
    obtain ⟨ready, trapped, heq⟩ := decrement_frame e t
    rw [heq]
    exact .inl rfl
  | forceBuild k record hn _ _ hr =>
    rw [forceBuild_eq hn.1 hr]
    exact .inl rfl
  | finishTask t rest ti db _ _ hdb =>
    refine .inr ⟨ti, ?_, ?_, hdb⟩
    · simp [releaseTask, completeRule, Engine.modifyRule, emit, setComplete]
    · simp [releaseTask, completeRule, Engine.modifyRule, emit, setComplete]
  | _ => exact .inl rfl

theorem Micro.dated {h h' : Held} (hm : Micro c w (e, h) (e', h')) (hl : Linked e) (hd : Dated e) : Dated e' := by
  have hf := hm.ruleFrame hl
  refine hd.of_ruleFrame hf (fun db k r hdb hr => ?_)
  rw [hf.1]
  rcases hm.db_eq with heq | ⟨ti, hbuilt, hcomputed, heq⟩
  · exact hd.stored db k r (heq ▸ hdb) hr
  · obtain ⟨db₀, hdb₀, rfl⟩ := map_eq_some_iff.mp (heq ▸ hdb)
    by_cases hk : k = ti.forRuleInfo
    · -- the result just stored
      subst hk
      obtain rfl : (e'.ruleInfos ti.forRuleInfo).result = r := by simpa [setRuleResult] using hr
      rw [hbuilt, hcomputed]
      exact ⟨hd.computed_le _, le_refl _⟩
    · exact hd.stored db₀ k r hdb₀ (by simpa [setRuleResult, hk] using hr)

theorem ThreadCall.dated (hc : ThreadCall c e e') (hd : Dated e) : Dated e' := by
  cases hc with
  | taskIsComplete t ti value forceChange ht hcomp _ =>
    rw [taskIsComplete_eq value forceChange ht hcomp]
    have hstore := hd.store (c.signature ti.forRuleInfo) value forceChange hcomp
    refine ⟨fun k => ?_, fun k => ?_, hd.stored⟩
    · by_cases hk : k = ti.forRuleInfo
      · subst hk
        simpa [modifyRule] using hstore.1
      · simpa [modifyRule, hk] using hd.built k
    · by_cases hk : k = ti.forRuleInfo
      · subst hk
        simpa [modifyRule] using hstore.2
      · simpa [modifyRule, hk] using hd.computed k
  | discoveredDependency t ti key ht hcomp _ =>
    rw [taskDiscoveredDependency_eq key ht hcomp]
    exact ⟨hd.built, hd.computed, hd.stored⟩

/-! ## Builds, cancellations and reloads -/

/-- No build runs and none ran into undefined behaviour. -/
def Machine.BetweenBuilds (m : Machine T) : Prop :=
  match m.phase with
  | .idle | .returned _ _ _ => True
  | .executeTasks _ _ _ | .crashed => False

/-- What `build` leaves when `setCurrentIteration` fails: the iteration in the database is the old one, and
    the empty value is returned. -/
def Machine.refuseIteration (m m' : Machine T) : Machine T :=
  { engine := { m'.engine with db := m.engine.db }
    phase := match m'.phase with
      | .returned key success _ => .returned key success []
      | phase => phase }

/-- **A session**: an engine with no database or a new one, the steps of its machine, iterations the database
    refuses, and new engines with any client attached to the database the last one left. The steps meet `ok`
    and the databases that are reloaded meet `okReload`. -/
inductive Session (ok : Machine T → Action W → Prop) (okReload : BuildDB → Prop) :
    Client T W → Machine T → Prop where
  | detached (c : Client T W) : Session ok okReload c (Machine.init none)
  | attached (c : Client T W) : Session ok okReload c (Machine.init (some {}))
  | step {c m m'} (a : Action W) : Session ok okReload c m → ok m a →
      m.step c a = some m' → Session ok okReload c m'
  | refuseIteration {c m m'} (w : W) : Session ok okReload c m →
      ok m (.work w) → m.engine.db.isSome = true → m.step c (.work w) = some m' → m'.BetweenBuilds →
      Session ok okReload c (m.refuseIteration m')
  | reload {c m db} (c' : Client T W) : Session ok okReload c m →
      m.BetweenBuilds → m.engine.db = some db → okReload db →
      Session ok okReload c' (Machine.init (some db))

/-- When the remaining tasks are cancelled, no task of a rule in progress has stored a value in this epoch. -/
def NothingStored (m : Machine T) : Action W → Prop
  | .work _ => ∀ key didWork, m.phase = .executeTasks key .cancelRemainingTasks didWork →
      m.engine.numOutstandingUnfinishedTasks = 0 → ∀ t ti, m.engine.taskInfos t = some ti →
        (m.engine.ruleInfos ti.forRuleInfo).isInProgress = true →
          (m.engine.ruleInfos ti.forRuleInfo).result.computedAt ≠ m.engine.currentEpoch
  | _ => True

/-- The iteration of the database covers every result stored in it. -/
def IterationWritten (db : BuildDB) : Prop :=
  ∀ k r, db.results k = some r → r.builtAt ≤ db.iteration

/-! ## The invariant -/

theorem Dated.refuseResult (hd : Dated e) (hl : Linked e) (c : Client T W) (w : W) {t : TaskID} {ti : TaskInfo T}
    (ht : e.taskInfos t = some ti) (rest : List TaskID) (message : String) :
    Dated (e.refuseResult rest ti message) := by
  have hmove : RuleMove c w e ti.forRuleInfo _ := .complete ti.discoveredDependencies (hl.taskRule t ti ht).1
  have hf : RuleFrame c w e (e.refuseResult rest ti message) := by
    refine .update hmove rfl ?_ ?_
    · simp [Engine.refuseResult, completeRule, Engine.modifyRule, emit]
    · simp [Engine.refuseResult, completeRule, Engine.modifyRule, emit, setComplete]
  exact hd.of_ruleFrame hf hd.stored

theorem result_cancelTasks (e : Engine T) (k : KeyType) :
    (e.cancelTasks.ruleInfos k).result = (e.ruleInfos k).result := by
  simp only [cancelTasks]
  split_ifs <;> rfl

/-- A new build opens a new epoch. -/
theorem dated_startBuild (he : Epochs e) (hs : StoredEpochs e) (key : KeyType) :
    Dated (Machine.startBuild e key) := by
  refine ⟨fun k => .inl (Nat.lt_succ_of_le (he.built k)), fun k => .inl (he.computed k), ?_⟩
  intro db k r hdb hr
  obtain ⟨hc, hb⟩ := hs db k r hdb hr
  exact ⟨hc, hb.trans (Nat.le_succ _)⟩

/-- A build that leaves no rule in progress ahead of its `builtAt` leaves the epochs in order. -/
theorem Dated.epochs (hd : Dated e) (hk : ∀ k, (e.ruleInfos k).isInProgress = true →
      (e.ruleInfos k).result.computedAt ≠ e.currentEpoch) : Epochs e := by
  refine ⟨fun k => ?_, hd.built_le⟩
  rcases hd.computed k with h | ⟨heq, hp⟩
  · exact h
  · exact absurd heq (hk k hp)

theorem storedEpochs_finish (hs : StoredEpochs e) (key : KeyType) (success : Bool) :
    StoredEpochs (Machine.finish e key success).engine := by
  intro db k r hdb hr
  obtain ⟨db₀, hdb₀, rfl⟩ := map_eq_some_iff.mp hdb
  exact hs db₀ k r hdb₀ hr

theorem epochs_finish_iff {key : KeyType} {success : Bool} :
    Epochs (Machine.finish e key success).engine ↔ Epochs e :=
  ⟨fun h => ⟨h.computed, h.built⟩, fun h => ⟨h.computed, h.built⟩⟩

theorem epochs_cancelTasks_iff : Epochs e.cancelTasks ↔ Epochs e := by
  constructor
  · rintro ⟨hc, hb⟩
    simp only [result_cancelTasks] at hc hb
    exact ⟨hc, hb⟩
  · rintro ⟨hc, hb⟩
    refine ⟨fun k => ?_, fun k => ?_⟩
    · rw [result_cancelTasks]
      exact hc k
    · rw [result_cancelTasks]
      exact hb k

/-- The epochs along the runs of one engine. -/
theorem epochs_invariant (c : Client T W) :
    RunInvariant c NothingStored (fun e => Epochs e ∧ StoredEpochs e) (fun _ e _ => Dated e) Dated
      (fun _ _ _ => True) where
  rest_flag := fun _ ⟨he, hs⟩ => ⟨⟨he.computed, he.built⟩, hs⟩
  loop_flag := fun _ hd => ⟨hd.built, hd.computed, hd.stored⟩
  cancel_flag := fun _ hd => ⟨hd.built, hd.computed, hd.stored⟩
  built_flag := fun _ _ => trivial
  loop_error := fun _ hd => ⟨hd.built, hd.computed, hd.stored⟩
  cancel_error := fun _ hd => ⟨hd.built, hd.computed, hd.stored⟩
  build := fun {_ key} _ _ ⟨he, hs⟩ => dated_startBuild he hs key
  micro := fun _ hs hd hm => hm.dated hs.linked hd
  complete := fun {m _ t ti value forceChange} _ _ hd ht hc hnf =>
    (ThreadCall.taskIsComplete (c := c) t ti value forceChange ht hc hnf).dated hd
  discovered := fun {m _ t ti input} _ _ hd ht hc hnf =>
    (ThreadCall.discoveredDependency (c := c) t ti input ht hc hnf).dated hd
  succeed := fun {key e} hs hd _ ht => by
    refine ⟨⟨epochs_finish_iff.mpr (hd.epochs (fun k hp => ?_)), storedEpochs_finish hd.stored key true⟩,
      trivial⟩
    obtain ⟨t, ti, -, hti, -⟩ := hs.linked.ruleTask k hp
    rw [ht t] at hti
    exact absurd hti (by simp)
  giveUp := fun _ hd _ => hd
  refuse := fun {m _ w t rest ti message} _ hs hd _ ht _ _ => hd.refuseResult hs.linked c w ht rest message
  cancel_drain := fun hd => ⟨hd.built, hd.computed, hd.stored⟩
  cancel_call := fun hc _ hd => hc.dated hd
  cancelled := fun {m key didWork _} hok hphase hdrain hd hzero => by
    refine ⟨epochs_finish_iff.mpr (epochs_cancelTasks_iff.mpr (hd.epochs (fun k hp => ?_))),
      storedEpochs_finish hd.stored key false⟩
    -- a rule in progress still has its task
    obtain ⟨t, ti, ht, rfl⟩ := hdrain.ruleTask k hp
    exact hok key didWork hphase hzero t ti ht hp

/-! ## Sessions -/

section Session

/-- What the epochs are at each stage of a session. -/
abbrev EpochsKept (m : Machine T) : Prop :=
  m.Satisfies (fun e => Epochs e ∧ StoredEpochs e) (fun _ e _ => Dated e) Dated (fun _ _ _ => True)

variable {m m' : Machine T}

theorem EpochsKept.rest (hk : EpochsKept m) (hm : m.BetweenBuilds) :
    Quiet m.engine ∧ Epochs m.engine ∧ StoredEpochs m.engine := by
  cases hphase : m.phase with
  | idle =>
    simp only [EpochsKept, Machine.Satisfies, hphase] at hk
    exact hk
  | returned key success value =>
    simp only [EpochsKept, Machine.Satisfies, hphase] at hk
    exact ⟨hk.1, hk.2.1⟩
  | executeTasks key pc didWork | crashed =>
    simp only [Machine.BetweenBuilds, hphase] at hm

theorem not_betweenBuilds_continueAt (e : Engine T) (key : KeyType) (pc : Pc) (didWork : Bool) :
    ¬ (Machine.continueAt e key pc didWork).BetweenBuilds := by
  unfold continueAt
  split_ifs
  · exact id
  · exact id

/-- A build returns from two places of the loop. -/
theorem work_returns {e : Engine T} {key : KeyType} {pc : Pc} {didWork : Bool}
    (h : Machine.work c w e key didWork pc = some m') (hm' : m'.BetweenBuilds) :
    m' = Machine.finish e key true ∨
      (m' = Machine.finish e.cancelTasks key false ∧ pc = .cancelRemainingTasks ∧
        e.numOutstandingUnfinishedTasks = 0) := by
  have hcont : ∀ {e' : Engine T} {pc' : Pc} {b : Bool}, some (continueAt e' key pc' b) = some m' →
      False := by
    intro e' pc' b heq
    cases heq
    exact not_betweenBuilds_continueAt _ _ _ _ hm'
  cases pc with
  | top =>
    simp only [work] at h
    split_ifs at h
    · exact (hcont h).elim
    · exact (hcont h).elim
  | ruleInfosToScan | inputRequests | finishedInputRequests | readyTaskInfos | finishedTaskInfos =>
    simp only [work] at h
    split at h
    · exact (hcont h).elim
    · exact (hcont h).elim
  | wait =>
    simp only [work] at h
    split_ifs at h
    · exact (hcont h).elim
    · exact (hcont h).elim
    · split at h
      · cases h
        exact (show False from hm').elim
      · exact (hcont h).elim
      · exact (hcont h).elim
    · exact .inl (Option.some.inj h).symm
  | cancelRemainingTasks =>
    simp only [work] at h
    split_ifs at h with hout
    · exact (hcont h).elim
    · exact .inr ⟨(Option.some.inj h).symm, rfl, not_not.mp hout⟩

theorem step_work_returns (h : m.step c (.work w) = some m') (hm' : m'.BetweenBuilds) :
    ∃ key pc didWork, m.phase = .executeTasks key pc didWork ∧
      (m' = Machine.finish m.engine key true ∨
        (m' = Machine.finish m.engine.cancelTasks key false ∧ pc = .cancelRemainingTasks ∧
          m.engine.numOutstandingUnfinishedTasks = 0)) := by
  cases hphase : m.phase with
  | executeTasks key pc didWork =>
    simp only [step, hphase] at h
    exact ⟨key, pc, didWork, rfl, work_returns h hm'⟩
  | _ => simp [step, hphase] at h

/-- The results in the database are the same before and after the iteration is written. -/
theorem storedEpochs_of_returns (h : m.step c (.work w) = some m') (hm' : m'.BetweenBuilds)
    (hs : StoredEpochs m'.engine) : StoredEpochs { m'.engine with db := m.engine.db } := by
  have hdb : m'.engine.db = m.engine.db.map (fun db => { db with iteration := m'.engine.currentEpoch }) := by
    obtain ⟨key, pc, didWork, -, rfl | ⟨rfl, -, -⟩⟩ := step_work_returns h hm'
    · rfl
    · rfl
  intro db k r heq hr
  refine hs { db with iteration := m'.engine.currentEpoch } k r ?_ hr
  rw [hdb, show m.engine.db = some db from heq]
  rfl

theorem epochs_init {db : BuildDB} (hc : ∀ k r, db.results k = some r → r.computedAt ≤ r.builtAt)
    (hb : IterationWritten db) :
    Epochs (Machine.init (T := T) (some db)).engine ∧ StoredEpochs (Machine.init (T := T) (some db)).engine := by
  refine ⟨⟨fun k => ?_, fun k => ?_⟩, fun db' k r hdb hr => ?_⟩
  · show ((db.results k).getD {}).computedAt ≤ ((db.results k).getD {}).builtAt
    cases hr : db.results k with
    | none => exact le_refl _
    | some r => exact hc k r hr
  · show ((db.results k).getD {}).builtAt ≤ db.iteration
    cases hr : db.results k with
    | none => exact Nat.zero_le _
    | some r => exact hb k r hr
  · cases hdb
    exact ⟨hc k r hr, hb k r hr⟩

/-- The epochs are kept along a session whose steps meet the conditions. -/
theorem Session.epochsKept {c : Client T W} (hs : Session NothingStored IterationWritten c m) : EpochsKept m := by
  induction hs with
  | detached c =>
    exact ⟨quiet_init none, ⟨fun _ => le_refl _, fun _ => le_refl _⟩, fun db k r hdb => absurd hdb (by
      simp [init])⟩
  | attached c =>
    refine ⟨quiet_init _, epochs_init (fun k r hr => ?_) (fun k r hr => ?_)⟩
    · exact absurd hr (by simp)
    · exact absurd hr (by simp)
  | step a _ hok hstep ih => exact (epochs_invariant _).satisfies_step hok ih hstep
  | @refuseIteration c m m' w _ hok hdb hstep hm' ih =>
    have hkept := (epochs_invariant c).satisfies_step hok ih hstep
    obtain ⟨hq, he, hstored⟩ := EpochsKept.rest hkept hm'
    have hquiet : Quiet { m'.engine with db := m.engine.db } :=
      ⟨hq.linked.congr rfl rfl rfl rfl, hq.tasks, hq.records, hq.ruleInfosToScan, hq.inputRequests,
        hq.readyTaskInfos, hq.finishedTaskInfos, hq.outstanding⟩
    have hrest : Epochs { m'.engine with db := m.engine.db } ∧ StoredEpochs { m'.engine with db := m.engine.db } :=
      ⟨⟨he.computed, he.built⟩, storedEpochs_of_returns hstep hm' hstored⟩
    cases hphase : m'.phase with
    | idle =>
      simp only [EpochsKept, Machine.Satisfies, Machine.refuseIteration, hphase]
      exact ⟨hquiet, hrest⟩
    | returned key success value =>
      simp only [EpochsKept, Machine.Satisfies, Machine.refuseIteration, hphase]
      exact ⟨hquiet, hrest, fun _ => trivial⟩
    | executeTasks key pc didWork | crashed =>
      simp only [Machine.BetweenBuilds, hphase] at hm'
  | @reload c m db c' _ hm hdb hok ih =>
    obtain ⟨-, -, hstored⟩ := ih.rest hm
    exact ⟨quiet_init _, epochs_init (fun k r hr => (hstored db k r hdb hr).1) hok⟩

/-- A cancellation that throws away a stored value leaves its rule out of order. -/
theorem nothingStored_of_epochs {a : Action W} (hk : EpochsKept m) (hstep : m.step c a = some m')
    (hm' : m'.BetweenBuilds) (he : Epochs m'.engine) : NothingStored m a := by
  cases a with
  | work w =>
    intro key didWork hphase hzero t ti ht hp heq
    simp only [EpochsKept, Machine.Satisfies, hphase, if_true] at hk
    obtain ⟨-, hd⟩ := hk
    have hnot : ¬ (m.engine.ruleInfos ti.forRuleInfo).Done m.engine.currentEpoch := by
      intro hdone
      simp only [RuleInfo.Done, isComplete, Bool.and_eq_true, decide_eq_true_eq] at hdone
      simp [isInProgress, isInProgressWaiting, isInProgressComputing,
        hdone.1] at hp
    have hlt := hd.built_lt hnot
    have hengine : Epochs m.engine := by
      obtain ⟨key, pc, didWork, -, rfl | ⟨rfl, -, -⟩⟩ := step_work_returns hstep hm'
      · exact epochs_finish_iff.mp he
      · exact epochs_cancelTasks_iff.mp (epochs_finish_iff.mp he)
    have hle := hengine.computed ti.forRuleInfo
    rw [heq] at hle
    exact absurd hlt (not_lt.mpr hle)
  | _ => trivial

/-- **The epochs between builds are in order**, in every session in which no cancellation throws away a
    stored value and the iteration was written before a database is reloaded; and both conditions are needed,
    for each step and each reload. -/
theorem session_epochs {m : Machine T} (hs : Session NothingStored IterationWritten c m) :
    (m.BetweenBuilds → Epochs m.engine) ∧
    (∀ a m', m.step c a = some m' → m'.BetweenBuilds → (Epochs m'.engine ↔ NothingStored m a)) ∧
    (∀ db, m.BetweenBuilds → m.engine.db = some db →
      (Epochs (Machine.init (T := T) (some db)).engine ↔ IterationWritten db)) := by
  have hk := hs.epochsKept
  refine ⟨fun hm => (hk.rest hm).2.1, fun a m' hstep hm' => ⟨?_, fun hok => ?_⟩, fun db hm hdb => ⟨?_, ?_⟩⟩
  · exact nothingStored_of_epochs hk hstep hm'
  · have hkept : EpochsKept m' := (epochs_invariant c).satisfies_step hok hk hstep
    exact (hkept.rest hm').2.1
  · intro he k r hr
    have hb := he.built k
    simpa [init, hr] using hb
  · intro hw
    obtain ⟨-, -, hstored⟩ := hk.rest hm
    exact (epochs_init (fun k r hr => (hstored db k r hdb hr).1) hw).1

theorem Session.run {ok : Machine T → Action W → Prop} {okReload : BuildDB → Prop} {actions : List (Action W)}
    (hs : Session ok okReload c m) (hok : ∀ a ∈ actions, ∀ m, ok m a) (h : Machine.run c m actions = some m') :
    Session ok okReload c m' := by
  induction actions generalizing m with
  | nil =>
    cases h
    exact hs
  | cons a rest ih =>
    simp only [run, bind_eq_some_iff] at h
    obtain ⟨m₁, hstep, hrest⟩ := h
    exact ih (.step a hs (hok a (.head _) m) hstep) (fun a' ha' => hok a' (.tail _ ha')) hrest

/-- No task that is thrown away has stored a value in this epoch. -/
def storesNothing (m : Machine T) : Action W → Bool
  | .work _ =>
    match m.phase with
    | .executeTasks _ .cancelRemainingTasks _ => (List.range m.engine.nextTask).all fun t =>
      (m.engine.taskInfos t).all fun ti =>
        (m.engine.ruleInfos ti.forRuleInfo).result.computedAt ≠ m.engine.currentEpoch
    | _ => true
  | _ => true

theorem nothingStored_of_storesNothing {a : Action W} (hk : EpochsKept m) (h : storesNothing m a = true) :
    NothingStored m a := by
  cases a with
  | work w =>
    intro key didWork hphase _ t ti ht _
    simp only [EpochsKept, Machine.Satisfies, hphase, if_true] at hk
    -- there are no tasks beyond the next one
    have hlt : t < m.engine.nextTask := by
      by_contra hle
      rw [hk.1.fresh t (not_lt.mp hle)] at ht
      cases ht
    simp only [storesNothing, hphase, List.all_eq_true, List.mem_range] at h
    have hall := h t hlt
    rw [ht, all_some] at hall
    exact of_decide_eq_true hall
  | _ => trivial

/-- The actions one after the other, as long as nothing is thrown away that was stored. -/
def runStoring (c : Client T W) : Machine T → List (Action W) → Option (Machine T)
  | m, [] => some m
  | m, a :: rest => if storesNothing m a then (m.step c a).bind fun m' => runStoring c m' rest else none

theorem Session.runStoring {actions : List (Action W)} (hs : Session NothingStored IterationWritten c m)
    (h : Builra.runStoring c m actions = some m') : Session NothingStored IterationWritten c m' := by
  induction actions generalizing m with
  | nil =>
    cases h
    exact hs
  | cons a rest ih =>
    obtain ⟨hok, h⟩ := ite_none_right_eq_some.mp h
    obtain ⟨m₁, hstep, hrest⟩ := bind_eq_some_iff.mp h
    exact ih (.step a hs (nothingStored_of_storesNothing hs.epochsKept hok) hstep) hrest

end Session

/-- `[1]` needs `[2]`, whose value is stored; then the build is cancelled. -/
def storedActions : List (Action Unit) :=
  .build [1] :: (List.replicate 7 (.work ()) ++
    [.complete 1 [2] false, .work (), .work (), .cancelBuild] ++ List.replicate 4 (.work ()))

/-- A build that is cancelled while `[1]` waits for the value of `[2]`, and a build of `[2]` with the database it
    left. -/
theorem session_epochs_reloaded : ∃ m db m',
    runStoring (fixedClient fun k => if k = [1] then [[2]] else []) (init (some {})) storedActions = some m ∧
    m.phase = .returned [1] false [] ∧ m.engine.db = some db ∧ (db.results [2]).isSome = true ∧
    runStoring (fixedClient fun _ => []) (init (some db)) (.build [2] :: List.replicate 15 (.work ())) = some m' ∧
    m'.phase = .returned [2] true [2] ∧ Epochs m'.engine := by
  have hsome : ((runStoring (fixedClient fun k => if k = [1] then [[2]] else []) (init (some {})) storedActions).bind
      fun m => m.engine.db.bind fun db =>
        (runStoring (fixedClient fun _ => []) (init (some db)) (.build [2] :: List.replicate 15 (.work ()))).map
          fun m' => (m.phase, (db.results [2]).isSome, decide (db.iteration = m.engine.currentEpoch), m'.phase)) =
      some (.returned [1] false [], true, true, .returned [2] true [2]) := by decide +kernel
  obtain ⟨m, hm, hsome⟩ := bind_eq_some_iff.mp hsome
  obtain ⟨db, hdb, hsome⟩ := bind_eq_some_iff.mp hsome
  obtain ⟨m', hm', heq⟩ := map_eq_some_iff.mp hsome
  simp only [Prod.mk.injEq, decide_eq_true_eq] at heq
  obtain ⟨hphase, hstored, hiteration, hphase'⟩ := heq
  have hs := Session.runStoring (.attached _) hm
  have hbetween : m.BetweenBuilds := by simp [Machine.BetweenBuilds, hphase]
  have hwritten : IterationWritten db := fun k r hr =>
    hiteration ▸ ((hs.epochsKept.rest hbetween).2.2 db k r hdb hr).2
  have hs' : Session NothingStored IterationWritten (fixedClient fun _ => []) m' :=
    Session.runStoring (.reload _ hs hbetween hdb hwritten) hm'
  exact ⟨m, db, m', hm, hphase, hdb, hstored, hm', hphase',
    (session_epochs hs').1 (by simp [Machine.BetweenBuilds, hphase'])⟩

/-- `[1]` is started and completes, the build is cancelled, and the completion is thrown away. -/
def thrownAwayActions : List (Action Unit) :=
  .build [1] :: (List.replicate 8 (.work ()) ++
    [.complete 0 [1] false, .cancelBuild] ++ List.replicate 4 (.work ()))

/-- The result says it was computed in epoch 1 and built in epoch 0. -/
theorem epochs_thrownAway :
    ¬ ∀ (c : Client KeyType Unit) (m : Machine KeyType), Session (fun _ _ => True) (fun _ => True) c m →
      m.BetweenBuilds → Epochs m.engine := by
  intro h
  have hsome : ((run (fixedClient (fun _ => [])) (init none) thrownAwayActions).map
      (fun m => (m.phase, (m.engine.ruleInfos [1]).result.computedAt,
        (m.engine.ruleInfos [1]).result.builtAt))) =
      some (.returned [1] false [], 1, 0) := by decide +kernel
  obtain ⟨m, hm, heq⟩ := map_eq_some_iff.mp hsome
  simp only [Prod.mk.injEq] at heq
  obtain ⟨hphase, hcomputed, hbuilt⟩ := heq
  have hs : Session (fun _ _ => True) (fun _ => True) (fixedClient (fun _ => [])) m :=
    Session.run (.detached _) (fun _ _ _ => trivial) hm
  have hle := (h _ m hs (by simp [Machine.BetweenBuilds, hphase])).computed [1]
  rw [hcomputed, hbuilt] at hle
  exact absurd hle (by decide)

end Builra
