import Builra.Core.Accounting
import Builra.Core.Waits

namespace Builra

open List Machine RuleInfo

/-!
# `Core.CycleReport` — the cycle that `findCycle` reports

In a state without work whatever is not complete waits for something that is not complete, so the search
from the key to build must meet a rule twice. It starts at the key, though: when the key is complete and the
stuck tasks were started for its discovered dependencies, there is nothing to find (`findCycle_misses`).
The graph also keeps the deferred scan request of a rule that was forced to run, and the search may follow it.
Apart from these two, every report is genuine (`findCycle_genuine`).
-/

variable {T W : Type} {c : Client T W} {w : W}

open Engine

/-! ## The search -/

variable {predecessors : KeyType → List KeyType}

/-- What the search returns: the path it came by, the node, and then predecessors up to a repetition. -/
theorem searchCycle_some :
    ∀ (depth : Nat) (path : List KeyType) (node : KeyType) (cycle : List KeyType),
      searchCycle predecessors depth path node = some cycle →
      ∃ rest, cycle = path ++ node :: rest ∧ (node :: rest).IsChain (fun a b => b ∈ predecessors a) ∧
        ∃ front last, cycle = front ++ [last] ∧ last ∈ front := by
  intro depth
  induction depth with
  | zero =>
    intro path node cycle h
    exact absurd h (by simp [searchCycle])
  | succ depth ih =>
    intro path node cycle h
    simp only [searchCycle] at h
    split_ifs at h with hmem
    · cases h
      exact ⟨[], rfl, .singleton _, path, node, rfl, hmem⟩
    · obtain ⟨child, hchild, hrec⟩ := exists_of_findSome?_eq_some h
      obtain ⟨rest, hcycle, hchain, hrep⟩ := ih _ child cycle hrec
      refine ⟨child :: rest, by rw [hcycle]; simp, ?_, hrep⟩
      exact isChain_cons_cons.mpr ⟨hchild, hchain⟩

/-- Inside a finite set in which everything has a predecessor the search finds a repetition. -/
theorem searchCycle_isSome {s : Finset KeyType}
    (hne : ∀ k ∈ s, predecessors k ≠ []) (hin : ∀ k ∈ s, ∀ p ∈ predecessors k, p ∈ s) :
    ∀ (depth : Nat) (path : List KeyType) (node : KeyType), path.Nodup → (∀ k ∈ path, k ∈ s) → node ∈ s →
      s.card < path.length + depth → (searchCycle predecessors depth path node).isSome = true := by
  intro depth
  induction depth with
  | zero =>
    intro path node hnodup hpath _ hcard
    -- the path would be longer than the set
    have hle : path.toFinset.card ≤ s.card :=
      Finset.card_le_card (fun k hk => hpath k (mem_toFinset.mp hk))
    rw [toFinset_card_of_nodup hnodup] at hle
    omega
  | succ depth ih =>
    intro path node hnodup hpath hnode hcard
    simp only [searchCycle]
    split_ifs with hmem
    · rfl
    · obtain ⟨child, hchild⟩ := exists_mem_of_ne_nil _ (hne node hnode)
      rw [List.findSome?_isSome_iff]
      refine ⟨child, hchild, ih (path ++ [node]) child ?_ ?_ (hin node hnode child hchild) ?_⟩
      · rw [nodup_append_comm]
        exact nodup_cons.mpr ⟨hmem, hnodup⟩
      · intro k hk
        rcases mem_append.mp hk with hk | hk
        · exact hpath k hk
        · rw [mem_singleton.mp hk]
          exact hnode
      · rw [length_append, length_singleton]
        omega

/-! ## What waits for what -/

variable (e : Engine T)

/-- `a` waits for `b`: its task has a request for `b` that is paused at the scan of `b` or waits for the task
    of `b`, or `a` is being scanned and its scan request is deferred on the scan or the task of `b`. -/
def Engine.WaitsFor (a b : KeyType) : Prop :=
  (∃ t ti r, e.taskInfos t = some ti ∧ ti.forRuleInfo = a ∧ r.taskInfo = some t ∧ r.inputRuleInfo = b ∧
    ((∃ record, (e.ruleInfos b).pendingScanRecord = some record ∧ r ∈ record.pausedInputRequests) ∨
      ∃ t' ti', e.taskInfos t' = some ti' ∧ ti'.forRuleInfo = b ∧ r ∈ ti'.requestedBy)) ∨
  ((e.ruleInfos a).isScanning = true ∧ ∃ q : RuleScanRequest, q.ruleInfo = a ∧ q.inputRuleInfo = some b ∧
    ((∃ record, (e.ruleInfos b).pendingScanRecord = some record ∧ q ∈ record.deferredScanRequests) ∨
      ∃ t' ti', e.taskInfos t' = some ti' ∧ ti'.forRuleInfo = b ∧ q ∈ ti'.deferredScanRequests))

/-- What a cycle report promises. -/
structure Engine.GenuineCycle (e : Engine T) (buildKey : KeyType) (cycle : List KeyType) : Prop where
  first : cycle.head? = some buildKey
  repeats : ∃ front last, cycle = front ++ [last] ∧ last ∈ front
  waits : cycle.IsChain e.WaitsFor

/-- No scan request is left of a rule that is not being scanned any more. -/
def Engine.NoStaleScans : Prop :=
  ∀ q, e.ScanPending {} q → (e.ruleInfos q.ruleInfo).isScanning = true

/-- The rule was started and is not complete: it is being scanned, or it has a task. -/
def Engine.Stuck (k : KeyType) : Prop :=
  (e.ruleInfos k).isScanning = true ∨ (e.ruleInfos k).isInProgress = true

variable {e : Engine T} {x y key : KeyType}

/-- The edges of the graph. -/
theorem mem_successorGraph (hl : Linked e) :
    (x, y) ∈ e.successorGraph ↔
      (∃ t ti, e.taskInfos t = some ti ∧ ti.forRuleInfo = x ∧
        ((∃ r ∈ ti.requestedBy, e.requestingRule r = some y) ∨
          ∃ q ∈ ti.deferredScanRequests, q.ruleInfo = y)) ∨
      (∃ record, (e.ruleInfos x).pendingScanRecord = some record ∧
        ((∃ r ∈ record.pausedInputRequests, e.requestingRule r = some y) ∨
          ∃ q ∈ record.deferredScanRequests, q.ruleInfo = y)) := by
  simp only [successorGraph, mem_append, mem_flatMap, mem_range]
  refine or_congr ⟨?_, ?_⟩ ⟨?_, ?_⟩
  · rintro ⟨t, -, hmem⟩
    cases hti : e.taskInfos t with
    | none => simp [hti] at hmem
    | some ti =>
      simp only [hti, Option.map_some, Option.getD_some, taskEdges, mem_append, mem_filterMap,
        Option.map_eq_some_iff, Prod.mk.injEq, mem_map] at hmem
      rcases hmem with ⟨r, hr, y', hreq, rfl, rfl⟩ | ⟨q, hq, rfl, rfl⟩
      · exact ⟨t, ti, hti, rfl, .inl ⟨r, hr, hreq⟩⟩
      · exact ⟨t, ti, hti, rfl, .inr ⟨q, hq, rfl⟩⟩
  · rintro ⟨t, ti, hti, rfl, hwait⟩
    refine ⟨t, hl.lt_nextTask hti, ?_⟩
    simp only [hti, Option.map_some, Option.getD_some, taskEdges, mem_append, mem_filterMap,
      Option.map_eq_some_iff, Prod.mk.injEq, mem_map]
    rcases hwait with ⟨r, hr, hreq⟩ | ⟨q, hq, rfl⟩
    · exact .inl ⟨r, hr, y, hreq, trivial, rfl⟩
    · exact .inr ⟨q, hq, trivial, rfl⟩
  · rintro ⟨k, -, hmem⟩
    split_ifs at hmem with hscan
    · cases hrec : (e.ruleInfos k).pendingScanRecord with
      | none => simp [hrec] at hmem
      | some record =>
        simp only [hrec, Option.map_some, Option.getD_some, recordEdges, mem_append,
          mem_filterMap, Option.map_eq_some_iff, Prod.mk.injEq] at hmem
        rcases hmem with ⟨r, hr, y', hreq, rfl, rfl⟩ | ⟨q, hq, x', hin, rfl, rfl⟩
        · rw [(hl.rule k).paused record hrec r hr]
          exact ⟨record, hrec, .inl ⟨r, hr, hreq⟩⟩
        · cases ((hl.rule k).deferred record hrec q hq).symm.trans hin
          exact ⟨record, hrec, .inr ⟨q, hq, rfl⟩⟩
    · exact absurd hmem (by simp)
  · rintro ⟨record, hrec, hwait⟩
    have hscan : (e.ruleInfos x).isScanning = true := (hl.rule x).scanning (by simp [hrec])
    refine ⟨x, ?_, ?_⟩
    · by_contra hmem
      rw [(hl.keys x hmem).2] at hrec
      exact absurd hrec (by simp)
    · simp only [if_pos hscan, hrec, Option.map_some, Option.getD_some, recordEdges, mem_append,
        mem_filterMap, Option.map_eq_some_iff, Prod.mk.injEq]
      rcases hwait with ⟨r, hr, hreq⟩ | ⟨q, hq, rfl⟩
      · exact .inl ⟨r, hr, y, hreq, (hl.rule x).paused record hrec r hr, rfl⟩
      · exact .inr ⟨q, hq, x, (hl.rule x).deferred record hrec q hq, rfl, rfl⟩

theorem mem_predecessorGraph :
    x ∈ e.predecessorGraph y ↔ (x, y) ∈ e.successorGraph := by
  simp only [predecessorGraph, mem_insertionSort, mem_map, mem_filter, decide_eq_true_eq]
  constructor
  · rintro ⟨⟨x', y'⟩, ⟨hmem, rfl⟩, rfl⟩
    exact hmem
  · intro hmem
    exact ⟨(x, y), ⟨hmem, rfl⟩, rfl⟩

/-- What anything waits for is stuck. -/
theorem stuck_of_edge (hl : Linked e) (h : (x, y) ∈ e.successorGraph) :
    e.Stuck x := by
  rcases (mem_successorGraph hl).mp h with ⟨t, ti, hti, rfl, -⟩ | ⟨record, hrec, -⟩
  · exact .inr (hl.taskRule t ti hti).1
  · exact .inl ((hl.rule x).scanning (by simp [hrec]))

/-- The edges that belong to no stale scan request are genuine. -/
theorem waitsFor_of_edge (hl : Linked e) (hstale : e.NoStaleScans) (h : (x, y) ∈ e.successorGraph) :
    e.WaitsFor y x := by
  have hreq : ∀ r, e.requestingRule r = some y →
      ∃ t ti, r.taskInfo = some t ∧ e.taskInfos t = some ti ∧ ti.forRuleInfo = y := by
    intro r hr
    simp only [requestingRule, Option.map_eq_some_iff, Option.bind_eq_some_iff] at hr
    obtain ⟨ti, ⟨t, ht, hti⟩, hfor⟩ := hr
    exact ⟨t, ti, ht, hti, hfor⟩
  rcases (mem_successorGraph hl).mp h with ⟨t', ti', hti', rfl, hwait⟩ | ⟨record, hrec, hwait⟩
  · rcases hwait with ⟨r, hr, hry⟩ | ⟨q, hq, rfl⟩
    · obtain ⟨t, ti, ht, hti, hfor⟩ := hreq r hry
      exact .inl ⟨t, ti, r, hti, hfor, ht, (hl.task t' ti' hti').requestedBy r hr,
        .inr ⟨t', ti', hti', rfl, hr⟩⟩
    · exact .inr ⟨hstale q (.inr (.inr (.inr ⟨t', ti', hti', hq⟩))), q, rfl,
        (hl.task t' ti' hti').deferred q hq, .inr ⟨t', ti', hti', rfl, hq⟩⟩
  · rcases hwait with ⟨r, hr, hry⟩ | ⟨q, hq, rfl⟩
    · obtain ⟨t, ti, ht, hti, hfor⟩ := hreq r hry
      exact .inl ⟨t, ti, r, hti, hfor, ht, (hl.rule x).paused record hrec r hr, .inl ⟨record, hrec, hr⟩⟩
    · exact .inr ⟨hstale q (.inr (.inr (.inl ⟨x, record, hrec, hq⟩))), q, rfl,
        (hl.rule x).deferred record hrec q hq, .inl ⟨record, hrec, hq⟩⟩

/-- Without work, a registered task waits for an input. -/
theorem exists_edge_of_task (hs : Sound e {}) (hn : e.NoWork) {t : TaskID} {ti : TaskInfo T}
    (hti : e.taskInfos t = some ti) : ∃ x, (x, ti.forRuleInfo) ∈ e.successorGraph := by
  have hst := status_of_task hti
  -- no task is outstanding, so this one is not computing
  have hcomp : (e.ruleInfos ti.forRuleInfo).isInProgressComputing = false := by
    by_contra hc
    rw [Bool.not_eq_false] at hc
    rw [hc] at hst
    have hout : e.numOutstandingUnfinishedTasks =
        ((Finset.range e.nextTask).filter (e.board {}).Computing).card := hs.board.outstanding
    rw [hn.2.2.2.2] at hout
    have hempty := Finset.card_eq_zero.mp hout.symm
    have hmem : t ∈ (Finset.range e.nextTask).filter (e.board {}).Computing :=
      Finset.mem_filter.mpr ⟨Finset.mem_range.mpr (hs.linked.lt_nextTask hti), _, hst⟩
    rw [hempty] at hmem
    exact absurd hmem (by simp)
  rw [hcomp] at hst
  -- it is not ready either, so a request that names it is on its way
  have hwait : ti.waitCount ≠ 0 := by
    intro hz
    rw [hz] at hst
    have hready : t ∈ e.readyTaskInfos := (hs.board.ready t).mpr ⟨hst, by simp [board, Held.starting]⟩
    rw [hn.2.2.2.1] at hready
    exact absurd hready (by simp)
  have hbal := hs.board.balance t
  rw [Board.waitCount_of_status hst, Board.handingTo_of_none rfl, Nat.add_zero] at hbal
  have hpos : 0 < numNaming t (e.board {}).queued := by
    rw [← hbal]
    exact Nat.pos_of_ne_zero hwait
  obtain ⟨r, hr, hnames⟩ := Multiset.countP_pos.mp hpos
  have hreq : e.requestingRule r = some ti.forRuleInfo := by
    rw [names_iff] at hnames
    simp [requestingRule, hnames, hti]
  have hr' : r ∈ e.paused ∨ r ∈ e.requested := by
    have : r ∈ (e.inputRequests : Multiset TaskInputRequest) + e.paused + e.requested +
        (e.finishedInputRequests : Multiset TaskInputRequest) + 0 := hr
    simpa [hn.2.1, hn.2.2.1] using this
  rcases hr' with hp | hq
  · obtain ⟨k, -, hk⟩ := Multiset.mem_sum.mp hp
    cases hrec : (e.ruleInfos k).pendingScanRecord with
    | none => simp [pausedRequests, hrec] at hk
    | some record =>
      simp only [pausedRequests, hrec, Option.map_some, Option.getD_some, Multiset.mem_coe] at hk
      exact ⟨k, (mem_successorGraph hs.linked).mpr (.inr ⟨record, hrec, .inl ⟨r, hk, hreq⟩⟩)⟩
  · obtain ⟨t', -, hk⟩ := Multiset.mem_sum.mp hq
    cases hti' : e.taskInfos t' with
    | none => simp [TaskInfo.requests, hti'] at hk
    | some ti' =>
      simp only [TaskInfo.requests, hti', Option.map_some, Option.getD_some, Multiset.mem_coe] at hk
      exact ⟨ti'.forRuleInfo, (mem_successorGraph hs.linked).mpr
        (.inl ⟨t', ti', hti', rfl, .inl ⟨r, hk, hreq⟩⟩)⟩

/-- **Without work, whatever is stuck waits for something.** -/
theorem exists_edge_of_stuck (hs : Sound e {}) (hw : Waits key e {}) (hn : e.NoWork)
    (hd : e.hasDanglingRecord = false) {k : KeyType} (hk : e.Stuck k) :
    ∃ x, (x, k) ∈ e.successorGraph := by
  rcases hk with hscan | hprog
  · have hrec : (e.ruleInfos k).pendingScanRecord ≠ none := by
      intro hnone
      have hkey : k ∈ e.ruleKeys := by
        by_contra hmem
        simp [isScanning, (hs.linked.keys k hmem).1] at hscan
      have hdang : e.hasDanglingRecord = true := any_eq_true.mpr ⟨k, hkey, by simp [hscan, hnone]⟩
      rw [hd] at hdang
      exact absurd hdang (by simp)
    obtain ⟨q, hq, rfl⟩ := hw.live k hscan hrec
    rcases hq with hmem | hheld | ⟨x, record, hrec, hmem⟩ | ⟨t, ti, hti, hmem⟩
    · rw [hn.1] at hmem
      exact absurd hmem (by simp)
    · exact absurd hheld (by simp)
    · exact ⟨x, (mem_successorGraph hs.linked).mpr (.inr ⟨record, hrec, .inr ⟨q, hmem, rfl⟩⟩)⟩
    · exact ⟨ti.forRuleInfo, (mem_successorGraph hs.linked).mpr
        (.inl ⟨t, ti, hti, rfl, .inr ⟨q, hmem, rfl⟩⟩)⟩
  · obtain ⟨t, ti, -, hti, rfl⟩ := hs.linked.ruleTask k hprog
    exact exists_edge_of_task hs hn hti

/-- The search from a stuck key ends with a repetition. -/
theorem findCycle_isSome (hs : Sound e {}) (hw : Waits key e {}) (hn : e.NoWork) (hd : e.hasDanglingRecord = false)
    (hk : e.Stuck key) :
    (searchCycle e.predecessorGraph (e.ruleKeys.length + 2) [] key).isSome = true := by
  classical
  have hkeys : ∀ k, e.Stuck k → k ∈ e.ruleKeys := by
    intro k hstuck
    by_contra hmem
    rcases hstuck with h | h <;>
      simp [isScanning, isInProgress, isInProgressWaiting,
        isInProgressComputing, (hs.linked.keys k hmem).1] at h
  have hstuck : ∀ k, k ∈ e.ruleKeys.toFinset.filter e.Stuck ↔ e.Stuck k := fun k => by
    simp only [Finset.mem_filter, mem_toFinset, and_iff_right_iff_imp]
    exact hkeys k
  refine searchCycle_isSome (s := e.ruleKeys.toFinset.filter e.Stuck) ?_ ?_ _ [] key (by simp) (by simp)
    ((hstuck key).mpr hk) ?_
  · intro k hk' hnil
    obtain ⟨x, hx⟩ := exists_edge_of_stuck hs hw hn hd ((hstuck k).mp hk')
    rw [← mem_predecessorGraph, hnil] at hx
    exact absurd hx (by simp)
  · intro k _ p hp
    exact (hstuck p).mpr (stuck_of_edge hs.linked (mem_predecessorGraph.mp hp))
  · have hcard : (e.ruleKeys.toFinset.filter e.Stuck).card ≤ e.ruleKeys.length :=
      (Finset.card_filter_le _ _).trans e.ruleKeys.toFinset_card_le
    rw [length_nil]
    omega

/-- A rule that waits for another one is stuck. -/
theorem Engine.WaitsFor.stuck (hl : Linked e) {a b : KeyType} (h : e.WaitsFor a b) :
    e.Stuck a := by
  rcases h with ⟨t, ti, r, hti, rfl, -⟩ | ⟨hscan, -⟩
  · exact .inr (hl.taskRule t ti hti).1
  · exact .inl hscan

/-- A complete rule is not stuck. -/
theorem not_stuck_of_done {k : KeyType} (hd : (e.ruleInfos k).Done e.currentEpoch) :
    ¬ e.Stuck k := by
  have hstate : (e.ruleInfos k).state = .complete := by
    simp only [RuleInfo.Done, isComplete, Bool.and_eq_true, decide_eq_true_eq] at hd
    exact hd.1
  simp [Stuck, isScanning, isInProgress, isInProgressWaiting,
    isInProgressComputing, hstate]

/-- In a state without work the report is genuine exactly when the key is not complete. -/
theorem genuineCycle_iff (hs : Sound e {}) (hw : Waits key e {}) (hn : e.NoWork) (hd : e.hasDanglingRecord = false)
    (hstale : e.NoStaleScans) :
    e.GenuineCycle key (e.findCycle key) ↔ ¬ (e.ruleInfos key).Done e.currentEpoch := by
  constructor
  · -- the first element waits for the second, and a complete rule waits for nothing
    rintro ⟨hfirst, ⟨front, last, hcycle, hlast⟩, hwaits⟩ hdone
    rw [hcycle] at hfirst hwaits
    cases front with
    | nil => exact absurd hlast (by simp)
    | cons a rest =>
      obtain rfl : a = key := by simpa using hfirst
      have hstuck : e.Stuck a := by
        cases rest with
        | nil | cons b rest => exact ((isChain_cons_cons.mp hwaits).1).stuck hs.linked
      exact not_stuck_of_done hdone hstuck
  · intro hdone
    have hk : e.Stuck key := by
      rcases hw.rooted with (⟨r, hmem, -⟩ | ⟨r, hheld, -⟩ | ⟨record, hrec, -⟩) | hd' | hp
      · rw [hn.2.1] at hmem
        exact absurd hmem (by simp)
      · exact absurd hheld (by simp)
      · exact .inl ((hs.linked.rule key).scanning (by simp [hrec]))
      · exact absurd hd' hdone
      · exact .inr hp
    obtain ⟨cycle, hcycle⟩ := Option.isSome_iff_exists.mp (findCycle_isSome hs hw hn hd hk)
    have heq : e.findCycle key = cycle := by simp [findCycle, hcycle]
    obtain ⟨rest, hpath, hchain, hrep⟩ := searchCycle_some _ _ _ _ hcycle
    rw [heq]
    refine ⟨by rw [hpath]; rfl, hrep, ?_⟩
    rw [hpath]
    exact hchain.imp (fun a b hb => waitsFor_of_edge hs.linked hstale (mem_predecessorGraph.mp hb))

/-! ## Every reachable state -/

/-- No scan and no root request is lost along runs. -/
theorem waits_invariant (c : Client T W) :
    RunInvariant c (fun _ _ => True) (fun _ => True) Waits (fun _ => True) (fun _ _ _ => True) where
  rest_flag := fun _ _ => trivial
  loop_flag := fun _ hw => ⟨hw.touched, hw.placed, hw.live, hw.rooted⟩
  cancel_flag := fun _ _ => trivial
  built_flag := fun _ _ => trivial
  loop_error := fun _ hw => ⟨hw.touched, hw.placed, hw.live, hw.rooted⟩
  cancel_error := fun _ _ => trivial
  build := fun {_ key} _ hq _ => hq.waits_startBuild key
  micro := fun _ hs hw hm => hm.waits hs.linked hw
  complete := fun {_ _ t ti value forceChange} _ _ hw ht hc hnf =>
    (ThreadCall.taskIsComplete (c := c) t ti value forceChange ht hc hnf).waits hw
  discovered := fun {_ _ t ti input} _ _ hw ht hc hnf =>
    (ThreadCall.discoveredDependency (c := c) t ti input ht hc hnf).waits hw
  succeed := fun _ _ _ _ => ⟨trivial, trivial⟩
  giveUp := fun _ _ _ => trivial
  refuse := fun _ _ _ _ _ _ _ => trivial
  cancel_drain := fun _ => trivial
  cancel_call := fun _ _ _ => trivial
  cancelled := fun _ _ _ _ _ => trivial

/-- In the loop, before tasks are cancelled, the invariants hold in every reachable state. -/
theorem waits_of_reachable {m : Machine T} {pc : Pc} {didWork : Bool} (hr : m.Reachable c)
    (hphase : m.phase = .executeTasks key pc didWork) (hpc : pc ≠ .cancelRemainingTasks) :
    Sound m.engine {} ∧ Waits key m.engine {} ∧ PcInv m.engine didWork pc := by
  obtain ⟨db, hr⟩ := hr
  have hinit : (init (T := T) db).Satisfies (fun _ => True) Waits (fun _ => True)
      (fun _ _ _ => True) := by
    cases db <;> exact ⟨quiet_init _, trivial⟩
  have hsat := (waits_invariant c).holds hinit hr
  simpa only [Machine.Satisfies, hphase, if_neg hpc] using hsat

/-- **Cycle reports.** In every reachable state in which `executeTasks` finds no work and nothing outstanding,
    and in which nothing is left of scans that are over, the report is genuine exactly when the key to build
    is not complete. -/
theorem findCycle_genuine {m : Machine T} {key : KeyType} (hr : m.Reachable c)
    (hphase : m.phase = .executeTasks key .wait false)
    (hout : m.engine.numOutstandingUnfinishedTasks = 0) (hd : m.engine.hasDanglingRecord = false)
    (hstale : m.engine.NoStaleScans) :
    m.engine.GenuineCycle key (m.engine.findCycle key) ↔
      ¬ (m.engine.ruleInfos key).Done m.engine.currentEpoch := by
  obtain ⟨hs, hw, hp⟩ := waits_of_reachable hr hphase (by simp)
  exact genuineCycle_iff hs hw (noWork_of_wait hp hout) hd hstale

/-- Whether a scan request is deferred anywhere. -/
def Engine.hasDeferredScans (e : Engine T) : Bool :=
  e.ruleKeys.any (fun k => (e.ruleInfos k).pendingScanRecord.any (fun record =>
    !record.deferredScanRequests.isEmpty)) ||
  (List.range e.nextTask).any (fun t => (e.taskInfos t).any (fun ti => !ti.deferredScanRequests.isEmpty))

/-- Nothing is stale if nothing is deferred. -/
theorem noStaleScans_of_not_deferred (hl : Linked e) (hn : e.ruleInfosToScan = []) (h : e.hasDeferredScans = false) :
    e.NoStaleScans := by
  rw [hasDeferredScans, Bool.or_eq_false_iff] at h
  obtain ⟨hrules, htasks⟩ := h
  rintro q (hmem | hheld | ⟨k, record, hrec, hmem⟩ | ⟨t, ti, hti, hmem⟩)
  · rw [hn] at hmem
    exact absurd hmem (by simp)
  · exact absurd hheld (by simp)
  · have hkey : k ∈ e.ruleKeys := by
      by_contra hk
      rw [(hl.keys k hk).2] at hrec
      exact absurd hrec (by simp)
    have hnil := any_eq_false.mp hrules k hkey
    simp only [hrec, Option.any_some, Bool.not_eq_true', Bool.not_eq_false, List.isEmpty_iff] at hnil
    rw [hnil] at hmem
    exact absurd hmem (by simp)
  · have hnil := any_eq_false.mp htasks t (mem_range.mpr (hl.lt_nextTask hti))
    simp only [hti, Option.any_some, Bool.not_eq_true', Bool.not_eq_false, List.isEmpty_iff] at hnil
    rw [hnil] at hmem
    exact absurd hmem (by simp)

/-- The rules `[1]` and `[2]` request each other. -/
def mutualClient : Client KeyType Unit :=
  fixedClient (fun k => if k = [1] then [[2]] else if k = [2] then [[1]] else [])

/-- The loop is stuck with the two tasks waiting for each other. -/
def mutualRun : Option (Machine KeyType) :=
  Machine.run mutualClient (Machine.init none) (.build [1] :: List.replicate 16 (.work ()))

theorem findCycle_genuine_mutual :
    ∃ m, mutualRun = some m ∧ m.engine.findCycle [1] = [[1], [2], [1]] ∧
      m.engine.GenuineCycle [1] (m.engine.findCycle [1]) := by
  have hsome : mutualRun.map (fun m => ((m.phase, m.engine.numOutstandingUnfinishedTasks),
      (m.engine.hasDanglingRecord, m.engine.hasDeferredScans),
      m.engine.findCycle [1], (m.engine.ruleInfos [1]).isComplete m.engine.currentEpoch)) =
      some ((.executeTasks [1] .wait false, 0), (false, false), [[1], [2], [1]], false) := by
    decide +kernel
  obtain ⟨m, hm, heq⟩ := Option.map_eq_some_iff.mp hsome
  simp only [Prod.mk.injEq] at heq
  obtain ⟨⟨hphase, hout⟩, ⟨hdang, hdef⟩, hcycle, hdone⟩ := heq
  have hr : m.Reachable mutualClient :=
    ⟨none, reachable_run _ _ m (fun _ _ _ => trivial) .refl hm⟩
  obtain ⟨hs, -, hp⟩ := waits_of_reachable hr hphase (by simp)
  refine ⟨m, hm, hcycle, (findCycle_genuine hr hphase hout hdang
    (noStaleScans_of_not_deferred hs.linked (noWork_of_wait hp hout).1 hdef)).mpr ?_⟩
  simp [RuleInfo.Done, hdone]

/-- The task of `[1]` requests nothing and reports `[2]` as a discovered dependency; `[2]` and `[3]` request
    each other. -/
def discoveredClient : Client KeyType Unit :=
  fixedClient (fun k => if k = [2] then [[3]] else if k = [3] then [[2]] else [])

def discoveredActions : List (Action Unit) :=
  .build [1] :: (List.replicate 15 (.work ()) ++
    .discoveredDependency 0 [2] :: .complete 0 [1] false :: List.replicate 25 (.work ()))

/-- The search starts at `[1]`, which is complete, and finds nothing. -/
theorem findCycle_misses :
    ¬ ∀ (m : Machine KeyType) (key : KeyType), m.Reachable discoveredClient →
      m.phase = .executeTasks key .wait false → m.engine.numOutstandingUnfinishedTasks = 0 →
      (∃ t ti, m.engine.taskInfos t = some ti) →
      m.engine.GenuineCycle key (m.engine.findCycle key) := by
  intro h
  have hsome : (run discoveredClient (init none) discoveredActions).map
      (fun m => (m.phase, m.engine.numOutstandingUnfinishedTasks, (m.engine.taskInfos 1).isSome,
        m.engine.findCycle [1])) = some (.executeTasks [1] .wait false, 0, true, []) := by
    decide +kernel
  obtain ⟨m, hm, heq⟩ := Option.map_eq_some_iff.mp hsome
  simp only [Prod.mk.injEq] at heq
  obtain ⟨hphase, hout, htask, hcycle⟩ := heq
  obtain ⟨ti, hti⟩ := Option.isSome_iff_exists.mp htask
  have hgen := (h m [1] ⟨none, reachable_run _ _ m (fun _ _ _ => trivial) .refl hm⟩ hphase hout
    ⟨1, ti, hti⟩).first
  rw [hcycle] at hgen
  exact absurd hgen (by simp)

end Builra
