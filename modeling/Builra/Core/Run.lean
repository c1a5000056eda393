import Builra.Core.Rules

namespace Builra

open Option Machine RuleInfo List

/-!
# `Core.Run` — from elementary moves to whole runs

One induction for every result about runs (`RunInvariant.holds`). An invariant has three parts: `Rest` holds
between builds, `Loop` inside `executeTasks`, `Cancel` while the remaining tasks are cancelled. Its
obligations are about elementary moves and about the few places where a build starts, succeeds or is given
up.
-/

variable {T W : Type} {c : Client T W} {w : W}

open Engine

/-! ## Cycle breaking as a move -/

variable {e e' : Engine T}

theorem breakCycle_cases (hl : Linked e) (hd : e.hasDanglingRecord = false) (hn : e.NoWork)
    (ht : ∃ t ti, e.taskInfos t = some ti) (cycleList : List KeyType) :
    ∀ (items : List KeyType) (e' : Engine T) (b : Bool),
      e.breakCycle c w cycleList items = some (e', b) →
      (b = false ∧ e' = e) ∨ (b = true ∧ Micro c w (e, {}) (e', {})) := by
  intro items
  induction items with
  | nil =>
    intro e' b h
    simp only [breakCycle, some.injEq, Prod.mk.injEq] at h
    exact .inl ⟨h.2.symm, h.1.symm⟩
  | cons k rest ih =>
    intro e' b h
    simp only [breakCycle] at h
    by_cases hs : (e.ruleInfos k).isScanning = true
    · rw [if_pos hs] at h
      split_ifs at h with hres
      · -- a scanning rule is forced to run
        simp only [some.injEq, Prod.mk.injEq] at h
        obtain ⟨rfl, rfl⟩ := h
        have hkey : k ∈ e.ruleKeys := by
          by_contra hmem
          simp [isScanning, (hl.keys k hmem).1] at hs
        have hrec : (e.ruleInfos k).pendingScanRecord ≠ none := by
          intro hnone
          have hdang : e.hasDanglingRecord = true := by
            refine any_eq_true.mpr ⟨k, hkey, ?_⟩
            simp [hs, hnone]
          rw [hd] at hdang
          exact absurd hdang (by simp)
        obtain ⟨record, hrecord⟩ := ne_none_iff_exists'.mp hrec
        exact .inr ⟨rfl, .forceBuild k record hn ht hs hrecord⟩
      · simp only [some.injEq, Prod.mk.injEq] at h
        exact .inl ⟨h.2.symm, h.1.symm⟩
    rw [if_neg hs] at h
    by_cases hw : ((e.ruleInfos k).isInProgressWaiting && (e.ruleInfos k).result.builtAt ≠ 0) = true
    · -- a waiting rule hands out its prior value
      rw [if_pos hw] at h
      simp only [Bool.and_eq_true] at hw
      split at h
      · rename_i next rest' t hpend
        split at h
        · exact ih e' b h
        · rename_i request hfind
          split_ifs at h with hres
          · simp only [some.injEq, Prod.mk.injEq] at h
            obtain ⟨rfl, rfl⟩ := h
            obtain ⟨ti, hti, hfor⟩ := hl.pendingTask (by simp [isInProgress, hw.1]) hpend
            rw [hti] at hfind
            refine .inr ⟨rfl, .supplyPriorValue t ti request hn hti
              (mem_of_find?_eq_some hfind) ?_⟩
            rw [hfor]
            exact hw.1
          · simp only [some.injEq, Prod.mk.injEq] at h
            exact .inl ⟨h.2.symm, h.1.symm⟩
      · exact absurd h (by simp)
    · rw [if_neg hw] at h
      exact ih e' b h

theorem resolveCycle_cases {key : KeyType} {b : Bool} (hl : Linked e) (hn : e.NoWork)
    (ht : ∃ t ti, e.taskInfos t = some ti) (h : e.resolveCycle c w key = some (e', b)) :
    (b = false ∧ e' = e.emit (.cycleDetected (e.findCycle key))) ∨
      (b = true ∧ Micro c w (e, {}) (e', {})) := by
  unfold resolveCycle at h
  split_ifs at h with hd
  dsimp only at h
  cases hb : e.breakCycle c w (e.findCycle key) (e.findCycle key).reverse with
  | none => simp [hb] at h
  | some result =>
    obtain ⟨e₁, b₁⟩ := result
    have hcases := breakCycle_cases (c := c) (w := w) hl (by simpa using hd) hn ht (e.findCycle key)
      _ e₁ b₁ hb
    cases b₁ with
    | true =>
      simp only [hb, some.injEq, Prod.mk.injEq] at h
      obtain ⟨rfl, rfl⟩ := h
      simpa using hcases
    | false =>
      simp only [hb, some.injEq, Prod.mk.injEq] at h
      obtain ⟨rfl, rfl⟩ := h
      obtain ⟨-, rfl⟩ | ⟨hf, -⟩ := hcases
      · exact .inl ⟨rfl, rfl⟩
      · exact absurd hf (by simp)

/-! ## What holds at every stage -/

/-- The tables are linked and the accounts of the scheduler balance. -/
structure Sound (e : Engine T) (h : Held) : Prop where
  linked : Linked e
  held : h.Wf
  board : (e.board h).Inv

/-- Between builds: no task, no request, no scan record. -/
structure Quiet (e : Engine T) : Prop where
  linked : Linked e
  tasks : ∀ t, e.taskInfos t = none
  records : ∀ k, (e.ruleInfos k).pendingScanRecord = none
  ruleInfosToScan : e.ruleInfosToScan = []
  inputRequests : e.inputRequests = []
  readyTaskInfos : e.readyTaskInfos = []
  finishedTaskInfos : e.finishedTaskInfos = []
  outstanding : e.numOutstandingUnfinishedTasks = 0

/-- While the remaining tasks are cancelled: every rule in progress still has its task. A rule whose result
    the database refused is complete and has one too, so the tables are not linked. -/
structure Draining (e : Engine T) : Prop where
  fresh : ∀ t, e.nextTask ≤ t → e.taskInfos t = none
  ruleTask : ∀ k, (e.ruleInfos k).isInProgress = true → ∃ t ti, e.taskInfos t = some ti ∧ ti.forRuleInfo = k
  keys : ∀ k, k ∉ e.ruleKeys → (e.ruleInfos k).state = .incomplete

/-- The queues that were found empty in this iteration of the loop. -/
def PcInv (e : Engine T) (didWork : Bool) (pc : Pc) : Prop :=
  didWork = false →
    match pc with
    | .top | .ruleInfosToScan | .cancelRemainingTasks => True
    | .inputRequests => e.ruleInfosToScan = []
    | .finishedInputRequests => e.ruleInfosToScan = [] ∧ e.inputRequests = []
    | .readyTaskInfos =>
      e.ruleInfosToScan = [] ∧ e.inputRequests = [] ∧ e.finishedInputRequests = []
    | .finishedTaskInfos | .wait =>
      e.ruleInfosToScan = [] ∧ e.inputRequests = [] ∧ e.finishedInputRequests = [] ∧
        e.readyTaskInfos = []

theorem Board.Moves.inv {b b' : Board} (hm : Board.Moves b b') (hb : b.Inv) : b'.Inv := by
  induction hm with
  | refl => exact hb
  | tail _ hmove ih => exact hmove.inv ih

theorem Micro.sound {h h' : Held} (hm : Micro c w (e, h) (e', h')) (hs : Sound e h) :
    Sound e' h' := by
  exact ⟨hm.linked hs.linked, hm.heldWf hs.held, (hm.board hs.linked hs.held hs.board).inv hs.board⟩

theorem ThreadCall.sound (hc : ThreadCall c e e') (hs : Sound e {}) : Sound e' {} := by
  exact ⟨hc.linked hs.linked, hs.held, (hc.board hs.linked).inv hs.board⟩

theorem Sound.error (hs : Sound e {}) (message : String) : Sound (e.error message) {} :=
  ⟨hs.linked.congr rfl rfl rfl rfl, hs.held,
    (Board.Move.report (b := e.board {}) (.error message) rfl).inv hs.board⟩

theorem Sound.flag (hs : Sound e {}) (b : Bool) :
    Sound { e with buildCancelled := b } {} :=
  ⟨hs.linked.congr rfl rfl rfl rfl, hs.held, hs.board⟩

theorem Quiet.flag (hq : Quiet e) (b : Bool) : Quiet { e with buildCancelled := b } :=
  ⟨hq.linked.congr rfl rfl rfl rfl, hq.tasks, hq.records, hq.ruleInfosToScan, hq.inputRequests,
    hq.readyTaskInfos, hq.finishedTaskInfos, hq.outstanding⟩

/-- A board with one dummy request and nothing else. -/
theorem board_inv_of_root {b : Board} {r : TaskInputRequest} (hr : r.taskInfo = none)
    (hq : b.queued = {r}) (hst : ∀ t, b.status t = none) (hready : b.ready = [])
    (hfin : b.finished = []) (hout : b.outstanding = 0) (hs : b.starting = none)
    (hh : b.handing = none) (hev : b.events = []) : b.Inv := by
  refine ⟨fun t _ => hst t, fun t => ?_, fun t n h => ?_, ?_, fun t => ?_, ?_, fun t h => ?_, ?_,
    fun t h => ?_, fun q t hq' _ => ?_, fun t h => ?_, fun t later earlier h => ?_⟩
  · rw [hq, numNaming_dummies (by simpa using hr), Board.handingTo_of_none hh]
    simp [Board.waitCount, hst]
  · exact absurd (hst t ▸ h) (by simp)
  · rw [hready]; exact nodup_nil
  · simp [hready, Board.Waiting, hst]
  · rw [hfin]; exact nodup_nil
  · simp [hfin] at h
  · rw [hout, Finset.filter_false_of_mem (fun t _ => Board.not_computing_of_none (hst t)),
      Finset.card_empty]
  · simp [hs] at h
  · rw [hq, hev, numCopies_dummies (by simpa using hr) hq']
    rfl
  · simp [hev] at h
  · simp [hev] at h

theorem Quiet.sound_startBuild (hq : Quiet e) (key : KeyType) :
    Sound (Machine.startBuild e key) {} := by
  refine ⟨hq.linked.congr rfl rfl rfl rfl, fun r hr => absurd hr (by simp), ?_⟩
  refine board_inv_of_root (r := rootRequest key) rfl ?_ (fun t => ?_) hq.readyTaskInfos
    hq.finishedTaskInfos hq.outstanding rfl rfl rfl
  · have hp : (startBuild e key).paused = 0 :=
      Finset.sum_eq_zero (fun k _ => pausedRequests_of_none (hq.records k))
    have hr : (startBuild e key).requested = 0 := by
      refine Finset.sum_eq_zero (fun t _ => ?_)
      simp [startBuild, TaskInfo.requests, hq.tasks t]
    simp only [board, hp, hr]
    simp [startBuild, hq.inputRequests, Held.queued]
  · simp [board, status, startBuild, hq.tasks t]

/-- Once a build has succeeded everything is quiet. -/
theorem Sound.quiet_finish (hs : Sound e {}) (hn : e.NoWork) (ht : ∀ t, e.taskInfos t = none) (key : KeyType) :
    Quiet (Machine.finish e key true).engine := by
  obtain ⟨hscan, hinput, -, hready, hout⟩ := hn
  have hl := hs.linked
  refine ⟨⟨hl.fresh, hl.taskRule, hl.ruleTask, fun k => .of_none rfl, hl.task,
    fun k hk => ⟨(hl.keys k hk).1, rfl⟩⟩, ht, fun k => rfl, hscan, hinput, hready, ?_, hout⟩
  -- a finished task would be registered
  refine eq_nil_iff_forall_not_mem.mpr (fun t hmem => ?_)
  obtain ⟨n, hn⟩ := hs.board.finished t hmem
  have hnone : (e.board {}).status t = none := by simp [Engine.board, status, ht t]
  rw [hnone] at hn
  exact absurd hn (by simp)

/-- A task that a queued request names is waiting. -/
theorem Sound.waiting_of_queued {h : Held} (hs : Sound e h) {r : TaskInputRequest} {t : TaskID} {ti : TaskInfo T}
    (hr : r.taskInfo = some t) (ht : e.taskInfos t = some ti) (hq : r ∈ (e.board h).queued) :
    (e.ruleInfos ti.forRuleInfo).isInProgressWaiting = true := by
  have hst : (e.board h).status t
      = some ⟨ti.waitCount, (e.ruleInfos ti.forRuleInfo).isInProgressComputing⟩ := status_of_task ht
  have hpos : 0 < numNaming t (e.board h).queued :=
    Multiset.countP_pos.mpr ⟨r, hq, names_iff.mpr hr⟩
  have hbal := hs.board.balance t
  rw [Board.waitCount_of_status hst] at hbal
  dsimp only at hbal
  have hprog := (hs.linked.taskRule t ti ht).1
  rw [isInProgress, Bool.or_eq_true] at hprog
  rcases hprog with hw | hc
  · exact hw
  · rw [hc] at hst
    have hzero := hs.board.computing t _ hst
    omega

theorem Sound.draining {h : Held} (hs : Sound e h) : Draining e := by
  refine ⟨hs.linked.fresh, fun k hk => ?_, fun k hk => (hs.linked.keys k hk).1⟩
  obtain ⟨t, ti, -, hti, hfor⟩ := hs.linked.ruleTask k hk
  exact ⟨t, ti, hti, hfor⟩

theorem hasTask_iff (hd : Draining e) {k : KeyType} :
    e.hasTask k = true ↔ ∃ t ti, e.taskInfos t = some ti ∧ ti.forRuleInfo = k := by
  simp only [hasTask, List.any_eq_true, List.mem_range]
  constructor
  · rintro ⟨t, -, h⟩
    cases ht : e.taskInfos t with
    | none => simp [ht] at h
    | some ti => exact ⟨t, ti, ht, by simpa [ht] using h⟩
  · rintro ⟨t, ti, ht, hk⟩
    refine ⟨t, ?_, by simp [ht, hk]⟩
    by_contra hlt
    rw [hd.fresh t (Nat.le_of_not_lt hlt)] at ht
    exact absurd ht (by simp)

theorem cancelTasks_not_inProgress (hd : Draining e) (k : KeyType) :
    (e.cancelTasks.ruleInfos k).isInProgress = false := by
  by_cases ht : e.hasTask k = true
  · simp [cancelTasks, ht, setCancelled, isScanning, isInProgress,
      isInProgressWaiting, isInProgressComputing]
  · have hnp : (e.ruleInfos k).isInProgress = false := by
      by_contra hp
      exact ht ((hasTask_iff hd).mpr (hd.ruleTask k (by simpa using hp)))
    simp only [cancelTasks, ht, Bool.false_eq_true, if_false]
    split_ifs
    · exact not_isInProgress_of_state (by simp [setCancelled]) (by simp [setCancelled])
    · exact hnp

/-- Once the remaining tasks are cancelled everything is quiet. -/
theorem Draining.quiet_finish (hd : Draining e) (hout : e.numOutstandingUnfinishedTasks = 0) (key : KeyType) :
    Quiet (Machine.finish e.cancelTasks key false).engine := by
  refine ⟨⟨fun _ _ => rfl, fun t ti ht => ?_, fun k hk => ?_, fun k => .of_none rfl, fun t ti ht => ?_,
    fun k hk => ⟨?_, rfl⟩⟩, fun _ => rfl, fun _ => rfl, rfl, rfl, rfl, rfl, hout⟩
  · exact absurd ht (by simp [finish, cancelTasks])
  · have hnp := cancelTasks_not_inProgress hd k
    have hp : (e.cancelTasks.ruleInfos k).isInProgress = true := hk
    rw [hnp] at hp
    exact absurd hp (by simp)
  · exact absurd ht (by simp [finish, cancelTasks])
  · have hs := hd.keys k hk
    simp only [finish, cancelTasks]
    split_ifs <;> simp [setCancelled, hs]

/-! ## The rule for runs -/

/-- The engine after the database refused the result of a finished task. -/
def Engine.refuseResult (e : Engine T) (rest : List TaskID) (ti : TaskInfo T) (message : String) :
    Engine T :=
  let e := { e with finishedTaskInfos := rest }.completeRule ti
  { e with
    events := .error message :: e.events
    numOutstandingUnfinishedTasks := e.numOutstandingUnfinishedTasks - 1 }

theorem processFinishedTask_refused {t : TaskID} {rest : List TaskID}
    (hs : ({ e with finishedTaskInfos := rest }.processFinishedTask c w t).2 = false) :
    ∃ ti message, e.taskInfos t = some ti ∧ c.setRuleResultError w ti.forRuleInfo = some message ∧
      e.db.isSome = true ∧
      ({ e with finishedTaskInfos := rest }.processFinishedTask c w t).1
        = e.refuseResult rest ti message := by
  unfold processFinishedTask at hs ⊢
  cases ht : e.taskInfos t with
  | none => simp [ht] at hs
  | some ti =>
    simp only [ht] at hs ⊢
    have hdb : ({ e with finishedTaskInfos := rest }.completeRule ti).db = e.db := rfl
    refine ⟨ti, ?_⟩
    unfold refuseResult
    generalize { e with finishedTaskInfos := rest }.completeRule ti = e₁ at hs hdb ⊢
    cases hd : e₁.db with
    | none => simp [hd] at hs
    | some db =>
      simp only [hd] at hs ⊢
      cases hw : c.setRuleResultError w ti.forRuleInfo with
      | none => simp [hw] at hs
      | some message => exact ⟨message, trivial, rfl, by rw [← hdb, hd]; rfl, by rw [← hd]⟩

theorem draining_refuseResult (hl : Linked e) (ti : TaskInfo T) (rest : List TaskID) (message : String) :
    Draining (e.refuseResult rest ti message) := by
  refine ⟨hl.fresh, fun k hk => ?_, fun k hk => ?_⟩
  · have hne : k ≠ ti.forRuleInfo := by
      rintro rfl
      simp [refuseResult, completeRule, modifyRule, emit, setComplete, isInProgress,
        isInProgressWaiting, isInProgressComputing] at hk
    obtain ⟨t', ti', -, hti', hfor⟩ := hl.ruleTask k (by
      simpa [refuseResult, completeRule, modifyRule, emit, hne] using hk)
    exact ⟨t', ti', hti', hfor⟩
  · have hmem : k ≠ ti.forRuleInfo ∧ k ∉ e.ruleKeys := by
      simpa [refuseResult, completeRule, modifyRule, emit, not_or] using hk
    simpa [refuseResult, completeRule, modifyRule, emit, hmem.1] using (hl.keys k hmem.2).1

theorem PcInv.of_didWork (e : Engine T) (pc : Pc) : PcInv e true pc := fun h => absurd h (by simp)

/-- Nothing is left to do when the loop waits without having done anything. -/
theorem noWork_of_wait (hp : PcInv e false .wait) (hout : e.numOutstandingUnfinishedTasks = 0) : e.NoWork := by
  obtain ⟨h₁, h₂, h₃, h₄⟩ := hp rfl
  exact ⟨h₁, h₂, h₃, h₄, hout⟩

theorem hasTasks_iff (hl : Linked e) :
    (List.range e.nextTask).any (fun t => (e.taskInfos t).isSome) = true ↔
      ∃ t ti, e.taskInfos t = some ti := by
  simp only [List.any_eq_true, List.mem_range]
  constructor
  · rintro ⟨t, -, h⟩
    obtain ⟨ti, hti⟩ := isSome_iff_exists.mp h
    exact ⟨t, ti, hti⟩
  · rintro ⟨t, ti, hti⟩
    exact ⟨t, hl.lt_nextTask hti, by simp [hti]⟩

theorem ThreadCall.draining (hc : ThreadCall c e e') (hd : Draining e) :
    Draining e' := by
  cases hc with
  | taskIsComplete t ti value forceChange ht hcomp _ =>
    rw [taskIsComplete_eq value forceChange ht hcomp]
    refine ⟨hd.fresh, fun k hk => hd.ruleTask k ?_, fun k hk => ?_⟩
    · by_cases heq : k = ti.forRuleInfo
      · subst heq
        simp [isInProgress, hcomp]
      · simpa [modifyRule, heq] using hk
    · have hmem : k ≠ ti.forRuleInfo ∧ k ∉ e.ruleKeys := by simpa [modifyRule, not_or] using hk
      simpa [modifyRule, hmem.1] using hd.keys k hmem.2
  | discoveredDependency t ti key ht hcomp _ =>
    rw [taskDiscoveredDependency_eq key ht hcomp]
    refine ⟨fun t' ht' => ?_, fun k hk => ?_, hd.keys⟩
    · have hnone := hd.fresh t' ht'
      by_cases heq : t' = t
      · subst heq; simp [modifyTask, hnone]
      · simpa [modifyTask, heq] using hnone
    · obtain ⟨t', ti', hti', hfor⟩ := hd.ruleTask k hk
      by_cases heq : t' = t
      · subst heq
        exact ⟨t', { ti' with
          discoveredDependencies := ti'.discoveredDependencies ++ [{ keyID := key }] },
          by simp [modifyTask, hti'], hfor⟩
      · exact ⟨t', ti', by simpa [modifyTask, heq] using hti', hfor⟩

/-- A call from another thread adds to no queue of the loop but the finished tasks. -/
theorem ThreadCall.pcInv (hc : ThreadCall c e e') {didWork : Bool} {pc : Pc} (hp : PcInv e didWork pc) :
    PcInv e' didWork pc := by
  cases hc with
  | taskIsComplete t ti value forceChange ht hcomp _ =>
    rw [taskIsComplete_eq value forceChange ht hcomp]
    exact hp
  | discoveredDependency t ti key ht hcomp _ =>
    rw [taskDiscoveredDependency_eq key ht hcomp]
    exact hp

/-- **An invariant of runs whose steps meet `ok`**: `Rest` between builds, `Loop` inside `executeTasks`,
    `Cancel` while tasks are cancelled, and `Built` of what a successful build returns. -/
structure RunInvariant (c : Client T W) (ok : Machine T → Action W → Prop) (Rest : Engine T → Prop)
    (Loop : KeyType → Engine T → Held → Prop) (Cancel : Engine T → Prop)
    (Built : KeyType → ValueType → Engine T → Prop) : Prop where
  rest_flag : ∀ {e : Engine T} (b : Bool), Rest e → Rest { e with buildCancelled := b }
  loop_flag : ∀ {key : KeyType} {e : Engine T} (b : Bool), Loop key e {} →
    Loop key { e with buildCancelled := b } {}
  cancel_flag : ∀ {e : Engine T} (b : Bool), Cancel e → Cancel { e with buildCancelled := b }
  built_flag : ∀ {key : KeyType} {value : ValueType} {e : Engine T} (b : Bool), Built key value e →
    Built key value { e with buildCancelled := b }
  loop_error : ∀ {key : KeyType} {e : Engine T} (message : String), Loop key e {} →
    Loop key (e.error message) {}
  cancel_error : ∀ {e : Engine T} (message : String), Cancel e → Cancel (e.error message)
  build : ∀ {m : Machine T} {key : KeyType}, ok m (.build key) → Quiet m.engine → Rest m.engine →
    Loop key (Machine.startBuild m.engine key) {}
  micro : ∀ {key : KeyType} {e e' : Engine T} {h h' : Held} {w : W},
    (∃ m, ok m (.work w) ∧ m.engine.currentEpoch = e.currentEpoch) → Sound e h → Loop key e h →
    Micro c w (e, h) (e', h') → Loop key e' h'
  complete : ∀ {m : Machine T} {key : KeyType} {t : TaskID} {ti : TaskInfo T} {value : ValueType}
    {forceChange : Bool}, ok m (.complete t value forceChange) → Sound m.engine {} →
    Loop key m.engine {} → m.engine.taskInfos t = some ti →
    (m.engine.ruleInfos ti.forRuleInfo).isInProgressComputing = true → t ∉ m.engine.finishedTaskInfos →
    Loop key (m.engine.taskIsComplete c t value forceChange) {}
  discovered : ∀ {m : Machine T} {key : KeyType} {t : TaskID} {ti : TaskInfo T} {input : KeyType},
    ok m (.discoveredDependency t input) → Sound m.engine {} → Loop key m.engine {} →
    m.engine.taskInfos t = some ti →
    (m.engine.ruleInfos ti.forRuleInfo).isInProgressComputing = true → t ∉ m.engine.finishedTaskInfos →
    Loop key (m.engine.taskDiscoveredDependency t input) {}
  succeed : ∀ {key : KeyType} {e : Engine T}, Sound e {} → Loop key e {} → e.NoWork →
    (∀ t, e.taskInfos t = none) →
    Rest (Machine.finish e key true).engine ∧
      Built key (e.ruleInfos key).result.value (Machine.finish e key true).engine
  giveUp : ∀ {key : KeyType} {e : Engine T}, Sound e {} → Loop key e {} →
    (e.buildCancelled = true ∨ e.NoWork ∧ ∃ t ti, e.taskInfos t = some ti) → Cancel e
  refuse : ∀ {m : Machine T} {key : KeyType} {w : W} {t : TaskID} {rest : List TaskID} {ti : TaskInfo T}
    {message : String}, ok m (.work w) → Sound m.engine {} → Loop key m.engine {} →
    m.engine.finishedTaskInfos = t :: rest → m.engine.taskInfos t = some ti →
    c.setRuleResultError w ti.forRuleInfo = some message → m.engine.db.isSome = true →
    Cancel (m.engine.refuseResult rest ti message)
  cancel_drain : ∀ {e : Engine T}, Cancel e → Cancel e.drainFinishedTasks
  cancel_call : ∀ {e e' : Engine T}, ThreadCall c e e' → Draining e → Cancel e → Cancel e'
  cancelled : ∀ {m : Machine T} {key : KeyType} {didWork : Bool} {w : W}, ok m (.work w) →
    m.phase = .executeTasks key .cancelRemainingTasks didWork → Draining m.engine → Cancel m.engine →
    m.engine.numOutstandingUnfinishedTasks = 0 →
    Rest (Machine.finish m.engine.cancelTasks key false).engine

/-- What a run invariant says about one state. -/
def Machine.Satisfies (Rest : Engine T → Prop) (Loop : KeyType → Engine T → Held → Prop)
    (Cancel : Engine T → Prop) (Built : KeyType → ValueType → Engine T → Prop) (m : Machine T) : Prop :=
  match m.phase with
  | .idle => Quiet m.engine ∧ Rest m.engine
  | .returned key success value =>
    Quiet m.engine ∧ Rest m.engine ∧ (success = true → Built key value m.engine)
  | .executeTasks key pc didWork =>
    if pc = .cancelRemainingTasks then Draining m.engine ∧ Cancel m.engine
    else Sound m.engine {} ∧ Loop key m.engine {} ∧ PcInv m.engine didWork pc
  | .crashed => True

namespace RunInvariant

variable {ok : Machine T → Action W → Prop} {Rest : Engine T → Prop}
  {Loop : KeyType → Engine T → Held → Prop} {Cancel : Engine T → Prop}
  {Built : KeyType → ValueType → Engine T → Prop}

variable {didWork : Bool} {key : KeyType} {m : Machine T}

theorem satisfies_loop {e : Engine T} {pc : Pc} (hpc : pc ≠ .cancelRemainingTasks)
    (h : e.trapped = true ∨ (Sound e {} ∧ Loop key e {} ∧ PcInv e didWork pc)) :
    (Machine.continueAt e key pc didWork).Satisfies Rest Loop Cancel Built := by
  unfold continueAt Machine.Satisfies
  rcases h with htrap | h
  · simp [htrap]
  · split_ifs
    · trivial
    · simpa [hpc] using h

theorem satisfies_cancel {e : Engine T} (hd : Draining e) (hc : Cancel e) :
    (Machine.continueAt e key .cancelRemainingTasks didWork).Satisfies Rest Loop Cancel Built := by
  unfold continueAt Machine.Satisfies
  split_ifs
  · trivial
  · exact ⟨hd, hc⟩

section

variable (hI : RunInvariant c ok Rest Loop Cancel Built)
include hI

/-- A sequence of moves keeps the loop invariant. -/
theorem micros (hok : ok m (.work w)) {s s' : Engine T × Held}
    (hm : Micros c w s s') (he : m.engine.currentEpoch = s.1.currentEpoch) (hs : Sound s.1 s.2)
    (hl : Loop key s.1 s.2) :
    Sound s'.1 s'.2 ∧ Loop key s'.1 s'.2 := by
  suffices h : m.engine.currentEpoch = s'.1.currentEpoch ∧ Sound s'.1 s'.2 ∧ Loop key s'.1 s'.2 from h.2
  induction hm with
  | refl => exact ⟨he, hs, hl⟩
  | @tail s₁ s₂ _ hmicro ih =>
    obtain ⟨he₁, hs₁, hl₁⟩ := ih
    exact ⟨he₁.trans (hmicro.ruleFrame hs₁.linked).1.symm, hmicro.sound hs₁,
      hI.micro ⟨m, hok, he₁⟩ hs₁ hl₁ hmicro⟩

theorem runs (hok : ok m (.work w)) (hs : Sound m.engine {})
    (hl : Loop key m.engine {}) {e' : Engine T} (hr : Runs c w (m.engine, {}) e') :
    e'.trapped = true ∨ (Sound e' {} ∧ Loop key e' {}) :=
  hr.imp id (fun hm => hI.micros hok hm rfl hs hl)

/-- **A step of the engine thread** keeps a run invariant. -/
theorem satisfies_work {m' : Machine T} {pc : Pc}
    (hphase : m.phase = .executeTasks key pc didWork) (hok : ok m (.work w)) (hm : m.Satisfies Rest Loop Cancel Built)
    (hstep : Machine.work c w m.engine key didWork pc = some m') :
    m'.Satisfies Rest Loop Cancel Built := by
  by_cases hpc : pc = .cancelRemainingTasks
  · subst hpc
    simp only [Machine.Satisfies, hphase, if_true] at hm
    obtain ⟨hd, hc⟩ := hm
    simp only [work] at hstep
    split_ifs at hstep with hout hfin
    · cases hstep
      exact satisfies_cancel ⟨hd.fresh, hd.ruleTask, hd.keys⟩ (hI.cancel_drain hc)
    · cases hstep
      have hzero : m.engine.numOutstandingUnfinishedTasks = 0 := not_not.mp hout
      exact ⟨hd.quiet_finish hzero key, hI.cancelled hok hphase hd hc hzero,
        fun h => absurd h (by simp)⟩
  simp only [Machine.Satisfies, hphase, if_neg hpc] at hm
  obtain ⟨hs, hl, hp⟩ := hm
  have hrun : ∀ {e' : Engine T} {pc' : Pc}, pc' ≠ .cancelRemainingTasks → Runs c w (m.engine, {}) e' →
      (continueAt e' key pc' true).Satisfies Rest Loop Cancel Built := by
    intro e' pc' hpc' hr
    refine satisfies_loop hpc' ((hI.runs hok hs hl hr).imp id (fun h => ⟨h.1, h.2, .of_didWork _ _⟩))
  have hgo : ∀ {pc' : Pc} {didWork' : Bool}, pc' ≠ .cancelRemainingTasks → PcInv m.engine didWork' pc' →
      (continueAt m.engine key pc' didWork').Satisfies Rest Loop Cancel Built :=
    fun hpc' hp' => satisfies_loop hpc' (.inr ⟨hs, hl, hp'⟩)
  cases pc with
  | cancelRemainingTasks => exact absurd rfl hpc
  | top =>
    simp only [work] at hstep
    split_ifs at hstep with hc
    · cases hstep
      exact satisfies_cancel hs.draining (hI.giveUp hs hl (.inl hc))
    · cases hstep
      exact hgo (by simp) (fun _ => trivial)
  | ruleInfosToScan =>
    simp only [work] at hstep
    split at hstep
    · rename_i hq
      cases hstep
      exact hgo (by simp) (fun _ => hq)
    · rename_i request rest hq
      cases hstep
      exact hrun (by simp) (processRuleScanRequest_runs hq)
  | inputRequests =>
    simp only [work] at hstep
    split at hstep
    · rename_i hq
      cases hstep
      exact hgo (by simp) (fun hd => ⟨hp hd, hq⟩)
    · rename_i request rest hq
      cases hstep
      exact hrun (by simp) (processInputRequest_runs hq)
  | finishedInputRequests =>
    simp only [work] at hstep
    split at hstep
    · rename_i hq
      cases hstep
      exact hgo (by simp) (fun hd => ⟨(hp hd).1, (hp hd).2, hq⟩)
    · rename_i request rest hq
      cases hstep
      refine hrun (by simp) (processFinishedInputRequest_runs hq (fun t ti htask hti => ?_))
      exact hs.waiting_of_queued htask hti (by
        show request ∈ _ + (m.engine.finishedInputRequests : Multiset TaskInputRequest) + _
        rw [hq]; simp)
  | readyTaskInfos =>
    simp only [work] at hstep
    split at hstep
    · rename_i hq
      cases hstep
      exact hgo (by simp) (fun hd => ⟨(hp hd).1, (hp hd).2.1, (hp hd).2.2, hq⟩)
    · rename_i t rest hq
      cases hstep
      exact hrun (by simp) (processReadyTask_runs hq)
  | finishedTaskInfos =>
    simp only [work] at hstep
    split at hstep
    · cases hstep
      exact hgo (by simp) (fun hd => hp hd)
    · rename_i t rest hq
      cases hstep
      cases hstored : ({ m.engine with finishedTaskInfos := rest }.processFinishedTask c w t).2 with
      | true => exact hrun (by simp) (processFinishedTask_runs hq hstored)
      | false =>
        obtain ⟨ti, message, hti, herr, hdb, heq⟩ := processFinishedTask_refused hstored
        rw [heq]
        exact satisfies_cancel (draining_refuseResult hs.linked ti rest message)
          (hI.refuse hok hs hl hq hti herr hdb)
  | wait =>
    simp only [work] at hstep
    cases didWork with
    | true =>
      cases hstep
      exact hgo (by simp) (fun _ => trivial)
    | false =>
      simp only [Bool.false_eq_true, if_false] at hstep
      by_cases hout : m.engine.numOutstandingUnfinishedTasks = 0
      · rw [if_neg (not_not.mpr hout)] at hstep
        have hn := noWork_of_wait hp hout
        by_cases htasks : (List.range m.engine.nextTask).any (fun t => (m.engine.taskInfos t).isSome) = true
        · rw [if_pos htasks] at hstep
          have ht := (hasTasks_iff hs.linked).mp htasks
          cases hres : m.engine.resolveCycle c w key with
          | none =>
            rw [hres] at hstep
            cases hstep
            trivial
          | some result =>
            obtain ⟨e', b⟩ := result
            rw [hres] at hstep
            have hcases := resolveCycle_cases hs.linked hn ht hres
            cases b with
            | true =>
              cases hstep
              obtain ⟨hf, -⟩ | ⟨-, hmicro⟩ := hcases
              · exact absurd hf (by simp)
              · obtain ⟨hs', hl'⟩ := hI.micros hok (.single hmicro) rfl hs hl
                exact satisfies_loop (by simp) (.inr ⟨hs', hl', fun _ => trivial⟩)
            | false =>
              cases hstep
              obtain ⟨-, rfl⟩ | ⟨hf, -⟩ := hcases
              · obtain ⟨hs', hl'⟩ := hI.micros hok
                  (.single (.report (.cycleDetected (m.engine.findCycle key)) rfl)) rfl hs hl
                exact satisfies_cancel hs'.draining (hI.giveUp hs' hl' (.inr ⟨hn, ht⟩))
              · exact absurd hf (by simp)
        · rw [if_neg htasks] at hstep
          cases hstep
          have hnone : ∀ t, m.engine.taskInfos t = none := by
            intro t
            by_contra hne
            obtain ⟨ti, hti⟩ := ne_none_iff_exists'.mp hne
            exact htasks ((hasTasks_iff hs.linked).mpr ⟨t, ti, hti⟩)
          obtain ⟨hrest, hbuilt⟩ := hI.succeed hs hl hn hnone
          exact ⟨hs.quiet_finish hn hnone key, hrest, fun _ => hbuilt⟩
      · rw [if_pos hout] at hstep
        split_ifs at hstep
        cases hstep
        exact hgo (by simp) (fun _ => trivial)

/-- A call on a task that another thread makes while the loop runs. -/
theorem satisfies_call {pc : Pc}
    (hphase : m.phase = .executeTasks key pc didWork) (hm : m.Satisfies Rest Loop Cancel Built)
    {f : Engine T → Engine T} (message : String)
    (hf : f m.engine = m.engine.error message ∨ (ThreadCall c m.engine (f m.engine) ∧
      (Sound m.engine {} → Loop key m.engine {} → Loop key (f m.engine) {}))) :
    (m.external f).Satisfies Rest Loop Cancel Built := by
  have hext : m.external f = continueAt (f m.engine) key pc didWork := by
    simp only [external, hphase]
  rw [hext]
  by_cases hpc : pc = .cancelRemainingTasks
  · subst hpc
    simp only [Machine.Satisfies, hphase, if_true] at hm
    obtain ⟨hd, hc⟩ := hm
    rcases hf with herr | ⟨hcall, -⟩
    · rw [herr]
      exact satisfies_cancel ⟨hd.fresh, hd.ruleTask, hd.keys⟩ (hI.cancel_error message hc)
    · exact satisfies_cancel (hcall.draining hd) (hI.cancel_call hcall hd hc)
  · simp only [Machine.Satisfies, hphase, if_neg hpc] at hm
    obtain ⟨hs, hl, hp⟩ := hm
    rcases hf with herr | ⟨hcall, hloop⟩
    · rw [herr]
      exact satisfies_loop hpc (.inr ⟨hs.error message, hI.loop_error message hl, hp⟩)
    · exact satisfies_loop hpc (.inr ⟨hcall.sound hs, hloop hs hl, hcall.pcInv hp⟩)

/-- Setting or clearing `buildCancelled`. -/
theorem satisfies_flag (hm : m.Satisfies Rest Loop Cancel Built)
    (b : Bool) :
    ({ m with engine := { m.engine with buildCancelled := b } } : Machine T).Satisfies
      Rest Loop Cancel Built := by
  unfold Machine.Satisfies at hm ⊢
  cases hphase : m.phase with
  | idle =>
    rw [hphase] at hm
    exact ⟨hm.1.flag b, hI.rest_flag b hm.2⟩
  | returned key success value =>
    rw [hphase] at hm
    exact ⟨hm.1.flag b, hI.rest_flag b hm.2.1, fun h => hI.built_flag b (hm.2.2 h)⟩
  | executeTasks key pc didWork =>
    simp only [hphase] at hm ⊢
    split_ifs at hm ⊢ with hpc
    · exact ⟨⟨hm.1.fresh, hm.1.ruleTask, hm.1.keys⟩, hI.cancel_flag b hm.2⟩
    · exact ⟨hm.1.flag b, hI.loop_flag b hm.2.1, hm.2.2⟩
  | crashed => trivial

/-- **Every step keeps a run invariant.** -/
theorem satisfies_step {m' : Machine T} {a : Action W} (hok : ok m a)
    (hm : m.Satisfies Rest Loop Cancel Built) (hstep : m.step c a = some m') : m'.Satisfies Rest Loop Cancel Built := by
  cases a with
  | build key =>
    have hrest : Quiet m.engine ∧ Rest m.engine ∧ m' = m.build key := by
      cases hphase : m.phase with
      | idle =>
        simp only [Machine.Satisfies, hphase] at hm
        simp only [step, hphase, some.injEq] at hstep
        exact ⟨hm.1, hm.2, hstep.symm⟩
      | returned key' success value =>
        simp only [Machine.Satisfies, hphase] at hm
        simp only [step, hphase, some.injEq] at hstep
        exact ⟨hm.1, hm.2.1, hstep.symm⟩
      | executeTasks key' pc didWork | crashed => simp [step, hphase] at hstep
    obtain ⟨hq, hr, rfl⟩ := hrest
    unfold Machine.build
    split_ifs
    · exact ⟨hq, hr, fun h => absurd h (by simp)⟩
    · exact ⟨hq.sound_startBuild key, hI.build hok hq hr, fun _ => trivial⟩
  | resetForBuild =>
    have heq : m' = { m with engine := { m.engine with buildCancelled := false } } := by
      simp only [step] at hstep
      split at hstep
      · exact absurd hstep (by simp)
      · exact (some.inj hstep).symm
    rw [heq]
    exact hI.satisfies_flag hm false
  | work w =>
    cases hphase : m.phase with
    | executeTasks key pc didWork =>
      simp only [step, hphase] at hstep
      exact hI.satisfies_work hphase hok hm hstep
    | _ => simp [step, hphase] at hstep
  | complete t value forceChange =>
    cases hphase : m.phase with
    | executeTasks key pc didWork =>
      simp only [step, hphase] at hstep
      split_ifs at hstep with hen
      cases hstep
      obtain ⟨ti, hti⟩ := isSome_iff_exists.mp hen.1
      refine hI.satisfies_call hphase hm "invalid state for marking task complete" ?_
      by_cases hc : (m.engine.ruleInfos ti.forRuleInfo).isInProgressComputing = true
      · exact .inr ⟨.taskIsComplete t ti value forceChange hti hc hen.2,
          fun hs hl => hI.complete hok hs hl hti hc hen.2⟩
      · left
        simp only [Engine.taskIsComplete, hti, if_neg hc]
    | _ => simp [step, hphase] at hstep
  | discoveredDependency t key =>
    cases hphase : m.phase with
    | executeTasks key' pc didWork =>
      simp only [step, hphase] at hstep
      split_ifs at hstep with hen
      cases hstep
      obtain ⟨ti, hti⟩ := isSome_iff_exists.mp hen.1
      refine hI.satisfies_call hphase hm "invalid state for adding discovered dependency" ?_
      by_cases hc : (m.engine.ruleInfos ti.forRuleInfo).isInProgressComputing = true
      · exact .inr ⟨.discoveredDependency t ti key hti hc hen.2,
          fun hs hl => hI.discovered hok hs hl hti hc hen.2⟩
      · left
        simp only [Engine.taskDiscoveredDependency, hti, if_neg hc]
    | _ => simp [step, hphase] at hstep
  | cancelBuild =>
    have heq : m' = m.external (fun e => { e with buildCancelled := true }) := by
      simp only [step] at hstep
      split at hstep
      · exact absurd hstep (by simp)
      · exact (some.inj hstep).symm
    have hflag := hI.satisfies_flag hm true
    rw [heq]
    unfold external
    split
    · rename_i key pc didWork hphase
      unfold continueAt
      split_ifs
      · trivial
      · rw [hphase] at hflag
        exact hflag
    · exact hflag

/-- **The rule for runs.** -/
theorem holds {m₀ : Machine T}
    (h₀ : m₀.Satisfies Rest Loop Cancel Built) (hr : Machine.ReachableFrom c ok m₀ m) :
    m.Satisfies Rest Loop Cancel Built := by
  induction hr with
  | refl => exact h₀
  | step a _ hok hstep ih => exact hI.satisfies_step hok ih hstep

end

end RunInvariant

/-- Between builds an engine fresh from a database is quiet. -/
theorem quiet_init (db : Option BuildDB) : Quiet (Machine.init (T := T) db).engine := by
  cases db with
  | none | some db => exact ⟨⟨fun _ _ => rfl, fun _ _ h => absurd h (by simp [init]), fun k h => absurd h
      (by simp [init, isInProgress, isInProgressWaiting,
        isInProgressComputing]), fun _ => .of_none rfl,
      fun _ _ h => absurd h (by simp [init]), fun _ _ => ⟨rfl, rfl⟩⟩, fun _ => rfl, fun _ => rfl,
      rfl, rfl, rfl, rfl, rfl⟩

end Builra
