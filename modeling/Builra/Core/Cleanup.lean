import Builra.Core.Accounting

namespace Builra

open List Option Machine RuleInfo

/-!
# `Core.Cleanup` — what `cancelRemainingTasks` finds

`executeTasks` calls `cancelRemainingTasks` from three places. Two of them are between queue operations,
where the tables are linked: every registered task is the pending task of a rule in progress, and
`numOutstandingUnfinishedTasks` counts the tasks that were readied and not popped. The third is inside the
operation that finishes a task, after the database has refused its result: the rule is complete and its
task is still in the table.
-/

variable {T W : Type} {c : Client T W} {w : W}

open Engine

/-! ## Readied tasks -/

/-- Every computing task was told that its inputs are available. -/
def Board.Told (b : Board) : Prop := ∀ t, b.Computing t → Event.inputsAvailable t ∈ b.events

namespace Board

theorem Told.update {b : Board} (ht : b.Told) {t : TaskID} {s : Option TaskStatus}
    (hs : ∀ n, s ≠ some ⟨n, true⟩) {status : TaskID → Option TaskStatus} {events : List Event}
    (hstatus : status = Function.update b.status t s) (hev : ∀ ev ∈ b.events, ev ∈ events) :
    ∀ t', (∃ n, status t' = some ⟨n, true⟩) → Event.inputsAvailable t' ∈ events := by
  rintro t' ⟨n, h⟩
  rw [hstatus] at h
  by_cases heq : t' = t
  · subst heq
    rw [Function.update_self] at h
    exact absurd h (hs n)
  · rw [Function.update_of_ne heq] at h
    exact hev _ (ht t' ⟨n, h⟩)

/-- Only a launch makes a task compute. -/
theorem Move.told {b b' : Board} (hm : Move b b') (ht : b.Told) : b'.Told := by
  cases hm with
  | report event _ | handOver r t value rest _ _ _ _ => exact fun t h => mem_cons_of_mem _ (ht t h)
  | register _ _ | countDownReady r t _ _ _ _ | countDownWaiting r t n _ _ _ _ | release t rest _ =>
    exact ht.update (by simp) rfl (fun _ h => h)
  | request t n r _ _ _ _ => exact ht.update (by simp) rfl (fun _ h => mem_cons_of_mem _ h)
  | launch t rest _ _ =>
    rintro t' ⟨n, h⟩
    by_cases heq : t' = t
    · subst heq
      exact mem_cons_self
    · refine mem_cons_of_mem _ (ht t' ⟨n, ?_⟩)
      simpa [Function.update_of_ne heq] using h
  | _ => exact ht

theorem Moves.told {b b' : Board} (hm : Moves b b') (ht : b.Told) : b'.Told := by
  induction hm with
  | refl => exact ht
  | tail _ hmove ih => exact hmove.told ih

end Board

/-- Readied tasks along runs. -/
theorem told_invariant (c : Client T W) :
    RunInvariant c (fun _ _ => True) (fun _ => True) (fun _ e h => (e.board h).Told) (fun _ => True)
      (fun _ _ _ => True) where
  rest_flag := fun _ _ => trivial
  loop_flag := fun _ ht => ht
  cancel_flag := fun _ _ => trivial
  built_flag := fun _ _ => trivial
  loop_error := fun message ht => (Board.Move.report (.error message) rfl).told ht
  cancel_error := fun _ _ => trivial
  build := fun {m key} _ hq _ => by
    rintro t ⟨n, h⟩
    simp [board, status, startBuild, hq.tasks t] at h
  micro := fun _ hs ht hm => (hm.board hs.linked hs.held hs.board).told ht
  complete := fun {m key t ti value forceChange} _ hs ht hti hc hnf =>
    ((ThreadCall.taskIsComplete (c := c) t ti value forceChange hti hc hnf).board hs.linked).told ht
  discovered := fun {m key t ti input} _ hs ht hti hc hnf =>
    ((ThreadCall.discoveredDependency (c := c) t ti input hti hc hnf).board hs.linked).told ht
  succeed := fun _ _ _ _ => ⟨trivial, trivial⟩
  giveUp := fun _ _ _ => trivial
  refuse := fun _ _ _ _ _ _ _ => trivial
  cancel_drain := fun _ => trivial
  cancel_call := fun _ _ _ => trivial
  cancelled := fun _ _ _ _ _ => trivial

/-- The tasks that were readied in this build and not popped from `finishedTaskInfos`. Popping a task
    completes its rule. -/
def Engine.unfinishedTasks (e : Engine T) : Finset TaskID :=
  (Finset.range e.nextTask).filter (fun t => .inputsAvailable t ∈ e.events ∧
    (e.taskInfos t).any (fun ti => (e.ruleInfos ti.forRuleInfo).state ≠ .complete) = true)

variable {e : Engine T} {key : KeyType} {m m₀ : Machine T}

theorem mem_unfinishedTasks {t : TaskID} :
    t ∈ e.unfinishedTasks ↔ t < e.nextTask ∧ .inputsAvailable t ∈ e.events ∧
      ∃ ti, e.taskInfos t = some ti ∧ (e.ruleInfos ti.forRuleInfo).state ≠ .complete := by
  cases h : e.taskInfos t with
  | none | some ti => simp [unfinishedTasks, h]

/-- The registered tasks that were readied are those that compute. -/
theorem unfinishedTasks_eq (hs : Sound e {}) (ht : (e.board {}).Told) :
    e.unfinishedTasks = (Finset.range e.nextTask).filter (e.board {}).Computing := by
  ext t
  rw [mem_unfinishedTasks, Finset.mem_filter, Finset.mem_range]
  refine and_congr_right (fun _ => ?_)
  constructor
  · rintro ⟨hev, ti, hti, -⟩
    -- a readied task is not waiting
    have hst : (e.board {}).status t
        = some ⟨ti.waitCount, (e.ruleInfos ti.forRuleInfo).isInProgressComputing⟩ := status_of_task hti
    have hnw := (hs.board.launched t ⟨_, hev, by simp [Event.launches]⟩).2
    cases hc : (e.ruleInfos ti.forRuleInfo).isInProgressComputing with
    | true => exact ⟨_, by rw [hst, hc]⟩
    | false => exact absurd (by rw [Board.Waiting, hst, hc]) (hnw ti.waitCount)
  · intro hc
    refine ⟨ht t hc, ?_⟩
    obtain ⟨n, hn⟩ := hc
    obtain ⟨ti, hti, hst⟩ := map_eq_some_iff.mp hn
    refine ⟨ti, hti, fun hcomplete => ?_⟩
    simp [isInProgressComputing, hcomplete] at hst

/-! ## The precondition -/

/-- **What `cancelRemainingTasks` asserts and relies on**: every registered task is the pending task of a
    rule in progress, and the tasks that are waited for are counted. -/
structure CleanupReady (e : Engine T) : Prop where
  pending : ∀ t ti, e.taskInfos t = some ti →
    (e.ruleInfos ti.forRuleInfo).isInProgress = true ∧
      (e.ruleInfos ti.forRuleInfo).pendingTaskInfo = some t
  outstanding : e.numOutstandingUnfinishedTasks = e.unfinishedTasks.card

theorem Sound.cleanupReady (hs : Sound e {}) (ht : (e.board {}).Told) : CleanupReady e := by
  refine ⟨hs.linked.taskRule, ?_⟩
  rw [unfinishedTasks_eq hs ht]
  exact hs.board.outstanding

/-- The finished tasks are among those that are waited for. -/
theorem Sound.finished_mem (hs : Sound e {}) (ht : (e.board {}).Told) {t : TaskID} (hf : t ∈ e.finishedTaskInfos) :
    t ∈ e.unfinishedTasks := by
  rw [unfinishedTasks_eq hs ht, Finset.mem_filter, Finset.mem_range]
  obtain ⟨n, hn⟩ := hs.board.finished t hf
  exact ⟨hs.board.lt_nextTask hn, n, hn⟩

/-! ## The draining loop -/

/-- The tasks an action completes. -/
def Action.completes : Action W → List TaskID
  | .complete t _ _ => [t]
  | _ => []

/-- The machine is inside `cancelRemainingTasks`. -/
def Machine.Cancelling (m : Machine T) (key : KeyType) : Prop :=
  ∃ didWork, m.phase = .executeTasks key .cancelRemainingTasks didWork

/-- **The draining loop of `cancelRemainingTasks`**, entered at `m₀`: any steps that stay inside it, in which
    a task completes at most once (`completed` lists them). -/
inductive Drains (c : Client T W) (key : KeyType) (m₀ : Machine T) : List TaskID → Machine T → Prop where
  | enter : m₀.Cancelling key → Drains c key m₀ [] m₀
  | step {completed m m'} (a : Action W) : Drains c key m₀ completed m →
      (∀ t ∈ a.completes, t ∉ completed ∧ t ∉ m₀.engine.finishedTaskInfos) →
      m.step c a = some m' → m'.Cancelling key → Drains c key m₀ (a.completes ++ completed) m'

/-- **The assertions of `cancelRemainingTasks` hold, and it returns once all tasks have completed.** -/
def DrainsSafely (c : Client T W) (key : KeyType) (m₀ : Machine T) : Prop :=
  ∀ completed m, Drains c key m₀ completed m →
    m.engine.finishedTaskInfos.length ≤ m.engine.numOutstandingUnfinishedTasks ∧
    (m.engine.numOutstandingUnfinishedTasks = 0 → ∀ t ti, m.engine.taskInfos t = some ti →
      (m.engine.ruleInfos ti.forRuleInfo).isInProgress = true ∧
        (m.engine.ruleInfos ti.forRuleInfo).pendingTaskInfo = some t) ∧
    ((∀ t ∈ m₀.engine.unfinishedTasks, t ∈ m₀.engine.finishedTaskInfos ∨ t ∈ completed) →
      ∀ w : W, ∃ n ≤ 2, ∃ m', Machine.run c m (List.replicate n (.work w)) = some m' ∧
        m'.phase = .returned key false [])

/-- What the draining loop changes, entered with engine `e₀`: the tasks in `left` have still to complete. -/
structure Draining.State (e₀ : Engine T) (left : Finset TaskID) (e : Engine T) : Prop where
  trapped : e.trapped = false
  tasks : ∀ t, (e.taskInfos t).map (fun ti => ti.forRuleInfo)
    = (e₀.taskInfos t).map (fun ti => ti.forRuleInfo)
  state : ∀ k, (e.ruleInfos k).state = (e₀.ruleInfos k).state
  pending : ∀ k, (e.ruleInfos k).pendingTaskInfo = (e₀.ruleInfos k).pendingTaskInfo
  outstanding : e.numOutstandingUnfinishedTasks = e.finishedTaskInfos.length + left.card

namespace Draining.State

variable {e₀ e : Engine T} {left : Finset TaskID}

variable {ti : TaskInfo T}

section

variable (hs : Draining.State e₀ left e)
include hs

theorem task {t : TaskID} (ht : e.taskInfos t = some ti) :
    ∃ ti₀, e₀.taskInfos t = some ti₀ ∧ ti₀.forRuleInfo = ti.forRuleInfo := by
  have hmap := hs.tasks t
  rw [ht] at hmap
  obtain ⟨ti₀, hti₀, heq⟩ := map_eq_some_iff.mp hmap.symm
  exact ⟨ti₀, hti₀, heq⟩

/-- The registered tasks are pending as they were on entry. -/
theorem pending_of_ready (hr : CleanupReady e₀) {t : TaskID}
    (ht : e.taskInfos t = some ti) :
    (e.ruleInfos ti.forRuleInfo).isInProgress = true ∧
      (e.ruleInfos ti.forRuleInfo).pendingTaskInfo = some t := by
  obtain ⟨ti₀, hti₀, heq⟩ := hs.task ht
  obtain ⟨hp, hpend⟩ := hr.pending t ti₀ hti₀
  rw [heq] at hp hpend
  refine ⟨?_, (hs.pending _).trans hpend⟩
  simp only [isInProgress, isInProgressWaiting, isInProgressComputing, hs.state]
  exact hp

theorem drain : Draining.State e₀ left e.drainFinishedTasks := by
  refine ⟨hs.trapped, hs.tasks, hs.state, hs.pending, ?_⟩
  simp [drainFinishedTasks, hs.outstanding]

theorem flag (b : Bool) :
    Draining.State e₀ left { e with buildCancelled := b } :=
  ⟨hs.trapped, hs.tasks, hs.state, hs.pending, hs.outstanding⟩

theorem error (message : String) :
    Draining.State e₀ left (e.error message) :=
  ⟨hs.trapped, hs.tasks, hs.state, hs.pending, hs.outstanding⟩

/-- A completion moves the task from those that are left to the finished ones. -/
theorem complete {t : TaskID} (value : ValueType) (forceChange : Bool)
    (ht : e.taskInfos t = some ti) (hc : (e.ruleInfos ti.forRuleInfo).isInProgressComputing = true) (hleft : t ∈ left) :
    Draining.State e₀ (left.erase t) (e.taskIsComplete c t value forceChange) := by
  rw [taskIsComplete_eq value forceChange ht hc]
  refine ⟨hs.trapped, hs.tasks, fun k => ?_, fun k => ?_, ?_⟩
  · by_cases hk : k = ti.forRuleInfo
    · subst hk
      simpa [modifyRule] using hs.state _
    · simpa [modifyRule, hk] using hs.state k
  · by_cases hk : k = ti.forRuleInfo
    · subst hk
      simpa [modifyRule] using hs.pending _
    · simpa [modifyRule, hk] using hs.pending k
  · have hpos := Finset.card_pos.mpr ⟨t, hleft⟩
    have hout := hs.outstanding
    rw [Finset.card_erase_of_mem hleft]
    simp only [modifyRule, length_cons]
    omega

theorem discover (t : TaskID) (key : KeyType) (ht : e.taskInfos t = some ti) :
    Draining.State e₀ left (e.taskDiscoveredDependency t key) := by
  by_cases hc : (e.ruleInfos ti.forRuleInfo).isInProgressComputing = true
  · rw [taskDiscoveredDependency_eq key ht hc]
    refine ⟨hs.trapped, fun t' => ?_, hs.state, hs.pending, hs.outstanding⟩
    rw [← hs.tasks t']
    by_cases heq : t' = t
    · subst heq
      simp [modifyTask, ht]
    · simp [modifyTask, heq]
  · simp only [taskDiscoveredDependency, ht, if_neg hc]
    exact hs.error _

end

end Draining.State

/-- What holds where the draining loop is entered. -/
structure Draining.Entry (e : Engine T) : Prop where
  trapped : e.trapped = false
  ready : CleanupReady e
  computing : ∀ t ti, e.taskInfos t = some ti →
    ((e.ruleInfos ti.forRuleInfo).isInProgressComputing = true ↔ t ∈ e.unfinishedTasks)
  finished : ∀ t ∈ e.finishedTaskInfos, t ∈ e.unfinishedTasks
  finishedNodup : e.finishedTaskInfos.Nodup

/-- The tasks that have still to complete. -/
def leftTasks (e : Engine T) (completed : List TaskID) : Finset TaskID :=
  e.unfinishedTasks \ (e.finishedTaskInfos.toFinset ∪ completed.toFinset)

theorem leftTasks_cons (e : Engine T) (t : TaskID) (completed : List TaskID) :
    leftTasks e (t :: completed) = (leftTasks e completed).erase t := by
  ext t'
  simp only [leftTasks, Finset.mem_sdiff, Finset.mem_union, List.mem_toFinset, mem_cons,
    Finset.mem_erase, not_or]
  tauto

theorem Draining.Entry.state (he : Draining.Entry e) :
    Draining.State e (leftTasks e []) e := by
  refine ⟨he.trapped, fun _ => rfl, fun _ => rfl, fun _ => rfl, ?_⟩
  have hsub : e.finishedTaskInfos.toFinset ⊆ e.unfinishedTasks := fun t ht =>
    he.finished t (mem_toFinset.mp ht)
  have hcard := Finset.card_sdiff_add_card_eq_card hsub
  rw [toFinset_card_of_nodup he.finishedNodup] at hcard
  rw [he.ready.outstanding, leftTasks, toFinset_nil, Finset.union_empty]
  omega

/-- One step of the draining loop. -/
theorem Draining.Entry.step {m' : Machine T} {completed : List TaskID} {a : Action W} (he : Draining.Entry m₀.engine)
    (hs : Draining.State m₀.engine (leftTasks m₀.engine completed) m.engine) (hm : m.Cancelling key)
    (ha : ∀ t ∈ a.completes, t ∉ completed ∧ t ∉ m₀.engine.finishedTaskInfos) (hstep : m.step c a = some m')
    (hm' : m'.Cancelling key) :
    Draining.State m₀.engine (leftTasks m₀.engine (a.completes ++ completed)) m'.engine := by
  obtain ⟨didWork, hphase⟩ := hm
  obtain ⟨didWork', hphase'⟩ := hm'
  have hext : ∀ f : Engine T → Engine T, (m.external f).engine = f m.engine := by
    intro f
    simp only [external, hphase, continueAt]
    split_ifs
    · rfl
    · rfl
  cases a with
  | build key' => simp [Machine.step, hphase] at hstep
  | resetForBuild =>
    simp only [Machine.step, hphase, Option.some.injEq] at hstep
    subst hstep
    exact hs.flag false
  | cancelBuild =>
    simp only [Machine.step, hphase, Option.some.injEq] at hstep
    subst hstep
    rw [hext]
    exact hs.flag true
  | work w =>
    simp only [Machine.step, hphase, Machine.work] at hstep
    split_ifs at hstep with hout hfin
    · cases hstep
      have heng : (continueAt m.engine.drainFinishedTasks key .cancelRemainingTasks didWork).engine
          = m.engine.drainFinishedTasks := by
        unfold continueAt
        split_ifs
        · rfl
        · rfl
      rw [heng]
      exact hs.drain
    · -- the loop is left
      cases hstep
      exact absurd hphase' (by simp [finish])
  | discoveredDependency t input =>
    simp only [Machine.step, hphase] at hstep
    split_ifs at hstep with hen
    cases hstep
    obtain ⟨ti, hti⟩ := isSome_iff_exists.mp hen.1
    rw [hext]
    exact hs.discover t input hti
  | complete t value forceChange =>
    simp only [Machine.step, hphase] at hstep
    split_ifs at hstep with hen
    cases hstep
    obtain ⟨ti, hti⟩ := isSome_iff_exists.mp hen.1
    rw [hext, show (Action.complete (W := W) t value forceChange).completes ++ completed = t :: completed
      from rfl, leftTasks_cons]
    obtain ⟨hnew, hfin⟩ := ha t mem_cons_self
    obtain ⟨ti₀, hti₀, hfor⟩ := hs.task hti
    have hsame : (m.engine.ruleInfos ti.forRuleInfo).isInProgressComputing
        = (m₀.engine.ruleInfos ti₀.forRuleInfo).isInProgressComputing := by
      simp only [isInProgressComputing, hs.state, hfor]
    by_cases hc : (m.engine.ruleInfos ti.forRuleInfo).isInProgressComputing = true
    · refine hs.complete value forceChange hti hc ?_
      simp only [leftTasks, Finset.mem_sdiff, Finset.mem_union, List.mem_toFinset, not_or]
      exact ⟨(he.computing t ti₀ hti₀).mp (hsame ▸ hc), hfin, hnew⟩
    · -- a task that is not computing completes with an error
      have hnot : t ∉ leftTasks m₀.engine completed := by
        intro hmem
        have hun := (Finset.mem_sdiff.mp hmem).1
        exact hc (hsame.trans ((he.computing t ti₀ hti₀).mpr hun))
      rw [Finset.erase_eq_of_notMem hnot]
      simp only [taskIsComplete, hti, if_neg hc]
      exact hs.error _

theorem Draining.Entry.drains {completed : List TaskID} (he : Draining.Entry m₀.engine)
    (hd : Drains c key m₀ completed m) :
    m.Cancelling key ∧ Draining.State m₀.engine (leftTasks m₀.engine completed) m.engine := by
  induction hd with
  | enter hm => exact ⟨hm, he.state⟩
  | step a _ ha hstep hm' ih => exact ⟨hm', he.step ih.2 ih.1 ha hstep hm'⟩

/-- With nothing left to complete the loop is left after one more iteration at most. -/
theorem Draining.State.returns {e₀ : Engine T} (hs : Draining.State e₀ ∅ m.engine) (hm : m.Cancelling key) (w : W) :
    ∃ n ≤ 2, ∃ m', Machine.run c m (List.replicate n (.work w)) = some m' ∧
      m'.phase = .returned key false [] := by
  obtain ⟨didWork, hphase⟩ := hm
  have hlen : m.engine.numOutstandingUnfinishedTasks = m.engine.finishedTaskInfos.length := by
    simpa using hs.outstanding
  -- the step that leaves the loop
  have hleave : ∀ m₁ : Machine T, m₁.phase = .executeTasks key .cancelRemainingTasks didWork →
      m₁.engine.numOutstandingUnfinishedTasks = 0 →
      m₁.step c (.work w) = some (finish m₁.engine.cancelTasks key false) := by
    intro m₁ hphase₁ hzero
    simp [step, hphase₁, work, hzero]
  by_cases hzero : m.engine.numOutstandingUnfinishedTasks = 0
  · refine ⟨1, by decide, finish m.engine.cancelTasks key false, ?_, rfl⟩
    simp only [replicate_one, run, hleave m hphase hzero, bind_some]
  · have hne : m.engine.finishedTaskInfos.isEmpty = false := by
      cases hf : m.engine.finishedTaskInfos with
      | nil =>
        rw [hf] at hlen
        exact absurd hlen hzero
      | cons t rest => rfl
    let m₁ : Machine T :=
      { engine := m.engine.drainFinishedTasks, phase := .executeTasks key .cancelRemainingTasks didWork }
    have hdrain : m.step c (.work w) = some m₁ := by
      have htrap : m.engine.drainFinishedTasks.trapped = false := hs.trapped
      simp [step, hphase, work, hzero, hne, continueAt, htrap, m₁]
    have hzero₁ : m₁.engine.numOutstandingUnfinishedTasks = 0 := by
      simp [m₁, drainFinishedTasks, hlen]
    refine ⟨2, le_refl _, finish m₁.engine.cancelTasks key false, ?_, rfl⟩
    simp only [List.replicate, run, hdrain, hleave m₁ rfl hzero₁, bind_some]

theorem Draining.Entry.drainsSafely (he : Draining.Entry m₀.engine) (key : KeyType) :
    DrainsSafely c key m₀ := by
  intro completed m hd
  obtain ⟨hm, hs⟩ := he.drains hd
  refine ⟨?_, fun _ t ti ht => hs.pending_of_ready he.ready ht, fun hall w => ?_⟩
  · rw [hs.outstanding]
    exact Nat.le_add_right _ _
  · have hempty : leftTasks m₀.engine completed = ∅ := by
      refine Finset.sdiff_eq_empty_iff_subset.mpr (fun t ht => ?_)
      simpa using hall t ht
    rw [hempty] at hs
    exact hs.returns hm w

/-! ## The three call sites -/

/-- The database refuses the result of the finished task that is about to be popped. -/
def Machine.RefusesResult (c : Client T W) (w : W) (m : Machine T) : Prop :=
  ∃ key didWork t rest ti message, m.phase = .executeTasks key .finishedTaskInfos didWork ∧
    m.engine.finishedTaskInfos = t :: rest ∧ m.engine.taskInfos t = some ti ∧
    m.engine.db.isSome = true ∧ c.setRuleResultError w ti.forRuleInfo = some message

theorem Sound.entry (hs : Sound e {}) (ht : (e.board {}).Told) (htrap : e.trapped = false) :
    Draining.Entry e := by
  refine ⟨htrap, hs.cleanupReady ht, fun t ti hti => ?_, fun t hf => hs.finished_mem ht hf,
    hs.board.finishedNodup⟩
  have hst : (e.board {}).status t
      = some ⟨ti.waitCount, (e.ruleInfos ti.forRuleInfo).isInProgressComputing⟩ := status_of_task hti
  rw [unfinishedTasks_eq hs ht, Finset.mem_filter, Finset.mem_range]
  constructor
  · intro hc
    exact ⟨hs.linked.lt_nextTask hti, _, by rw [hst, hc]⟩
  · rintro ⟨-, n, hn⟩
    rw [hst] at hn
    simpa using congrArg (fun s => s.map (fun s => s.computing)) hn

theorem cancelling_continueAt {key' : KeyType} {pc : Pc} {didWork : Bool}
    (h : (Machine.continueAt e key pc didWork).Cancelling key') :
    pc = .cancelRemainingTasks ∧ e.trapped = false ∧
      (Machine.continueAt e key pc didWork).engine = e := by
  obtain ⟨d, h⟩ := h
  unfold continueAt at h ⊢
  split_ifs at h ⊢ with htrap
  · simp only [Phase.executeTasks.injEq] at h
    exact ⟨h.2.1, by simpa using htrap, rfl⟩

/-- **Where `cancelRemainingTasks` is entered**: between two operations, or in the middle of one. -/
theorem work_enters {m' : Machine T} {key' : KeyType} {pc : Pc} {didWork : Bool}
    (hphase : m.phase = .executeTasks key pc didWork) (hpc : pc ≠ .cancelRemainingTasks) (hs : Sound m.engine {})
    (hp : PcInv m.engine didWork pc) (hstep : m.step c (.work w) = some m') (hm' : m'.Cancelling key') :
    m'.engine.trapped = false ∧
      ((¬ m.RefusesResult c w ∧ ∃ events, Board.Moves (m.engine.board {}) (m'.engine.board {}) ∧
          m'.engine = { m.engine with events := events }) ∨
        (m.RefusesResult c w ∧ ∃ t rest ti message, m.engine.taskInfos t = some ti ∧
          m'.engine = m.engine.refuseResult rest ti message)) := by
  have hother : pc ≠ .finishedTaskInfos → ¬ m.RefusesResult c w := by
    rintro hne ⟨key, didWork, t, rest, ti, message, hphase', -⟩
    rw [hphase] at hphase'
    simp only [Phase.executeTasks.injEq] at hphase'
    exact hne hphase'.2.1
  have hcont : ∀ {e' : Engine T} {pc' : Pc} {b : Bool}, pc' ≠ .cancelRemainingTasks →
      some (continueAt e' key pc' b) = some m' → False := by
    intro e' pc' b hne heq
    cases heq
    exact hne (cancelling_continueAt hm').1
  simp only [step, hphase] at hstep
  cases pc with
  | cancelRemainingTasks => exact absurd rfl hpc
  | top =>
    simp only [work] at hstep
    split_ifs at hstep with hcancel
    · cases hstep
      obtain ⟨-, htrap, heng⟩ := cancelling_continueAt hm'
      rw [heng]
      exact ⟨htrap, .inl ⟨hother (by simp), _, .refl, rfl⟩⟩
    · exact (hcont (by simp) hstep).elim
  | ruleInfosToScan | inputRequests | finishedInputRequests | readyTaskInfos =>
    simp only [work] at hstep
    split at hstep
    · exact (hcont (by simp) hstep).elim
    · exact (hcont (by simp) hstep).elim
  | finishedTaskInfos =>
    simp only [work] at hstep
    split at hstep
    · exact (hcont (by simp) hstep).elim
    · rename_i t rest hq
      cases hstored : ({ m.engine with finishedTaskInfos := rest }.processFinishedTask c w t).2 with
      | true =>
        rw [hstored] at hstep
        exact (hcont (by simp) hstep).elim
      | false =>
        rw [hstored] at hstep
        cases hstep
        obtain ⟨-, htrap, heng⟩ := cancelling_continueAt hm'
        rw [heng]
        obtain ⟨ti, message, hti, herr, hdb, heq⟩ := processFinishedTask_refused hstored
        exact ⟨htrap, .inr ⟨⟨key, didWork, t, rest, ti, message, hphase, hq, hti, hdb, herr⟩,
          t, rest, ti, message, hti, heq⟩⟩
  | wait =>
    simp only [work] at hstep
    cases didWork with
    | true => exact (hcont (by simp) hstep).elim
    | false =>
      simp only [Bool.false_eq_true, if_false] at hstep
      by_cases hout : m.engine.numOutstandingUnfinishedTasks = 0
      · rw [if_neg (not_not.mpr hout)] at hstep
        split_ifs at hstep with htasks
        · have ht := (hasTasks_iff hs.linked).mp htasks
          cases hres : m.engine.resolveCycle c w key with
          | none =>
            rw [hres] at hstep
            cases hstep
            obtain ⟨d, hd⟩ := hm'
            exact absurd hd (by simp)
          | some result =>
            obtain ⟨e', b⟩ := result
            rw [hres] at hstep
            cases b with
            | true => exact (hcont (by simp) hstep).elim
            | false =>
              cases hstep
              obtain ⟨-, htrap, heng⟩ := cancelling_continueAt hm'
              rw [heng]
              obtain ⟨-, rfl⟩ | ⟨hf, -⟩ := resolveCycle_cases hs.linked (noWork_of_wait hp hout) ht hres
              · exact ⟨htrap, .inl ⟨hother (by simp), _, .single (.report (.cycleDetected _) rfl), rfl⟩⟩
              · exact absurd hf (by simp)
        · cases hstep
          obtain ⟨d, hd⟩ := hm'
          exact absurd hd (by simp [finish])
      · rw [if_pos hout] at hstep
        split_ifs at hstep
        exact (hcont (by simp) hstep).elim

theorem not_cleanupReady_refuseResult {t : TaskID} {ti : TaskInfo T} (ht : e.taskInfos t = some ti)
    (rest : List TaskID) (message : String) :
    ¬ CleanupReady (e.refuseResult rest ti message) := by
  intro hr
  have hp := (hr.pending t ti ht).1
  simp [refuseResult, completeRule, modifyRule, emit, setComplete, isInProgress,
    isInProgressWaiting, isInProgressComputing] at hp

/-- **The cleanup precondition.** `cancelRemainingTasks` finds every registered task pending and all readied
    tasks counted, and it drains without a failed assertion, exactly if it is not entered because the
    database refused the result of a finished task. -/
theorem cancelRemainingTasks_ready_iff {m m' : Machine T} {key key' : KeyType} {pc : Pc} {didWork : Bool}
    (hr : m.Reachable c) (hphase : m.phase = .executeTasks key pc didWork) (hpc : pc ≠ .cancelRemainingTasks)
    (hstep : m.step c (.work w) = some m') (hm' : m'.Cancelling key') :
    (CleanupReady m'.engine ∧ DrainsSafely c key' m') ↔ ¬ m.RefusesResult c w := by
  obtain ⟨db, hr⟩ := hr
  have hinit : (init (T := T) db).Satisfies (fun _ => True) (fun _ e h => (e.board h).Told)
      (fun _ => True) (fun _ _ _ => True) := by
    have hidle : (init (T := T) db).phase = .idle := by cases db <;> rfl
    simp only [Machine.Satisfies, hidle]
    exact ⟨quiet_init db, trivial⟩
  have hsat := (told_invariant c).holds hinit hr
  simp only [Machine.Satisfies, hphase, if_neg hpc] at hsat
  obtain ⟨hs, ht, hp⟩ := hsat
  obtain ⟨htrap, ⟨hnot, events, hmoves, heng⟩ | ⟨href, t, rest, ti, message, hti, heng⟩⟩ :=
    work_enters hphase hpc hs hp hstep hm'
  · have hs' : Sound m'.engine {} := by
      refine ⟨?_, hs.held, hmoves.inv hs.board⟩
      rw [heng]
      exact hs.linked.congr rfl rfl rfl rfl
    have he := hs'.entry (hmoves.told ht) htrap
    exact ⟨fun _ => hnot, fun _ => ⟨he.ready, he.drainsSafely key'⟩⟩
  · refine ⟨fun h => ?_, fun hnot => absurd href hnot⟩
    rw [heng] at h
    exact absurd h.1 (not_cleanupReady_refuseResult hti rest message)

/-- `[1]` is being computed when its build is cancelled. -/
def cancelledRun : Option (Machine KeyType) :=
  Machine.run (fixedClient (fun _ => [])) (Machine.init none)
    (.build [1] :: (List.replicate 8 (.work ()) ++ [.cancelBuild, .work ()]))

theorem cancelRemainingTasks_ready_cancelled :
    ∃ m m', cancelledRun = some m ∧ m.step (fixedClient (fun _ => [])) (.work ()) = some m' ∧
      m'.engine.numOutstandingUnfinishedTasks = 1 ∧ CleanupReady m'.engine ∧
      DrainsSafely (fixedClient (fun _ => [])) [1] m' := by
  have hsome : ((cancelledRun.bind (fun m => (m.step (fixedClient (fun _ => [])) (.work ())).map (fun m' =>
      (m.phase, m'.phase, m'.engine.numOutstandingUnfinishedTasks))))) =
      some (.executeTasks [1] .top false, .executeTasks [1] .cancelRemainingTasks false, 1) := by
    decide +kernel
  obtain ⟨m, hm, hbind⟩ := bind_eq_some_iff.mp hsome
  obtain ⟨m', hm', heq⟩ := map_eq_some_iff.mp hbind
  simp only [Prod.mk.injEq] at heq
  obtain ⟨hphase, hphase', hone⟩ := heq
  have hr : m.Reachable (fixedClient (fun _ => [])) :=
    ⟨none, reachable_run _ _ m (fun _ _ _ => trivial) .refl hm⟩
  refine ⟨m, m', hm, hm', hone,
    (cancelRemainingTasks_ready_iff hr hphase (by decide) hm' ⟨false, hphase'⟩).mpr ?_⟩
  rintro ⟨key, didWork, t, rest, ti, message, hfin, -⟩
  rw [hphase] at hfin
  simp at hfin

/-- A client whose database takes no result. -/
def refusingClient : Client KeyType Unit :=
  { fixedClient (fun _ => []) with setRuleResultError := fun _ _ => some "database is locked" }

/-- `[1]` has completed and its result is about to be written. -/
def refusedRun : Option (Machine KeyType) :=
  Machine.run refusingClient (Machine.init (some {}))
    (.build [1] :: (List.replicate 7 (.work ()) ++ [.complete 0 [1] false]))

/-- After a refused write a task is left over whose rule is complete. -/
theorem cancelRemainingTasks_not_ready :
    ¬ ∀ (c : Client KeyType Unit) (m m' : Machine KeyType) (key key' : KeyType) (pc : Pc) (didWork : Bool),
      m.Reachable c → m.phase = .executeTasks key pc didWork → pc ≠ .cancelRemainingTasks →
      m.step c (.work ()) = some m' → m'.Cancelling key' →
      CleanupReady m'.engine ∧ DrainsSafely c key' m' := by
  intro h
  have hsome : ((refusedRun.bind (fun m => (m.step refusingClient (.work ())).map (fun m' =>
      (m.phase, m'.phase, (m'.engine.taskInfos 0).map (fun ti => ti.forRuleInfo),
        (m'.engine.ruleInfos [1]).isInProgress))))) =
      some (.executeTasks [1] .finishedTaskInfos true, .executeTasks [1] .cancelRemainingTasks true,
        some [1], false) := by
    decide +kernel
  obtain ⟨m, hm, hbind⟩ := bind_eq_some_iff.mp hsome
  obtain ⟨m', hm', heq⟩ := map_eq_some_iff.mp hbind
  simp only [Prod.mk.injEq] at heq
  obtain ⟨hphase, hphase', htask, hprog⟩ := heq
  obtain ⟨ti, hti, hfor⟩ := map_eq_some_iff.mp htask
  have hr : m.Reachable refusingClient :=
    ⟨some {}, reachable_run _ _ m (fun _ _ _ => trivial) .refl hm⟩
  have hready := (h refusingClient m m' [1] [1] _ _ hr hphase (by decide) hm' ⟨true, hphase'⟩).1
  have hp := (hready.pending 0 ti hti).1
  rw [hfor, hprog] at hp
  exact absurd hp (by simp)

end Builra
