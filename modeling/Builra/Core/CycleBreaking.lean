import Builra.Core.CycleReport

namespace Builra

open List Option RuleInfo

/-!
# `Core.CycleBreaking` — where `breakCycle` acts

The reported list is a path from the key to build followed by a closed part. `breakCycle` walks it backwards
and acts where it first can: at a rule that is being scanned, or at a waiting rule with a prior result that
has a request of the element before it. Nothing keeps the walk inside the closed part, and at the first
element there is none before it.
-/

variable {T W : Type} {c : Client T W} {w : W}

open Engine

/-! ## The walk -/

variable (e : Engine T)

/-- The task of rule `y` has a request of the task of rule `x`. -/
def Engine.HasRequest (y x : KeyType) : Prop :=
  ∃ t ti r, (e.ruleInfos y).pendingTaskInfo = some t ∧ e.taskInfos t = some ti ∧ r ∈ ti.requestedBy ∧
    e.requestingRule r = some x

/-- The walk stops at rule `y`, where `next` is the element it would visit next. -/
def Engine.StopsAt (next : Option KeyType) (y : KeyType) : Prop :=
  (e.ruleInfos y).isScanning = true ∨
    ((e.ruleInfos y).isInProgressWaiting = true ∧ (e.ruleInfos y).result.builtAt ≠ 0 ∧
      ∀ x, next = some x → e.HasRequest y x)

/-- The first element the walk stops at: `later` was passed, `rest` is still ahead. -/
structure Engine.FirstStop (e : Engine T) (items later : List KeyType) (y : KeyType) (rest : List KeyType) :
    Prop where
  eq : items = later ++ y :: rest
  stops : e.StopsAt rest.head? y
  passed : ∀ later' y' rest', items = later' ++ y' :: rest' → later'.length < later.length →
    ¬ e.StopsAt rest'.head? y'

/-- The walk stops somewhere or nowhere. -/
theorem firstStop_or (items : List KeyType) :
    (∀ later y rest, items = later ++ y :: rest → ¬ e.StopsAt rest.head? y) ∨
      ∃ later y rest, e.FirstStop items later y rest := by
  induction items with
  | nil => exact .inl (fun later y rest h => absurd h (by simp))
  | cons k items ih =>
    by_cases hk : e.StopsAt items.head? k
    · exact .inr ⟨[], k, items, rfl, hk, fun later' y' rest' _ hlt => absurd hlt (by simp)⟩
    rcases ih with hnone | ⟨later, y, rest, heq, hstop, hpassed⟩
    · left
      intro later y rest heq
      cases later with
      | nil =>
        cases heq
        exact hk
      | cons k' later => exact hnone later y rest (List.cons.inj heq).2
    · refine .inr ⟨k :: later, y, rest, by rw [heq]; rfl, hstop, fun later' y' rest' heq' hlt => ?_⟩
      cases later' with
      | nil =>
        cases heq'
        exact hk
      | cons k' later' => exact hpassed later' y' rest' (List.cons.inj heq').2 (by simpa using hlt)

theorem waiting_iff {r : RuleInfo} :
    (r.isInProgressWaiting && r.result.builtAt ≠ 0) = true ↔
      r.isInProgressWaiting = true ∧ r.result.builtAt ≠ 0 := by
  simp

variable {e : Engine T} {rest : List KeyType} {y x : KeyType} {t : TaskID} {ti : TaskInfo T}

/-- A rule the walk does not stop at is passed over. -/
theorem breakCycle_passed (hl : Linked e) (cycleList : List KeyType) (h : ¬ e.StopsAt rest.head? y) :
    e.breakCycle c w cycleList (y :: rest) = e.breakCycle c w cycleList rest := by
  have hs : (e.ruleInfos y).isScanning ≠ true := fun hs => h (.inl hs)
  conv_lhs => unfold breakCycle
  simp only [if_neg hs]
  by_cases hw : ((e.ruleInfos y).isInProgressWaiting && (e.ruleInfos y).result.builtAt ≠ 0) = true
  · rw [if_pos hw]
    obtain ⟨hwait, hbuilt⟩ := waiting_iff.mp hw
    obtain ⟨t, ti, hpend, hti, -⟩ := hl.ruleTask y (by simp [isInProgress, hwait])
    cases rest with
    | nil => exact absurd (.inr ⟨hwait, hbuilt, fun x hx => absurd hx (by simp)⟩) h
    | cons x rest =>
      have hnone : ti.requestedBy.find? (fun request => e.requestingRule request = some x) = none := by
        refine find?_eq_none.mpr (fun r hr hreq => h (.inr ⟨hwait, hbuilt, fun x' hx' => ?_⟩))
        obtain rfl : x = x' := by simpa using hx'
        exact ⟨t, ti, r, hpend, hti, hr, by simpa using hreq⟩
      simp only [hpend, hti, map_some, getD_some, hnone]
  · rw [if_neg hw]

theorem breakCycle_firstStop (hl : Linked e) (cycleList : List KeyType) {items later : List KeyType}
    (h : e.FirstStop items later y rest) :
    e.breakCycle c w cycleList items = e.breakCycle c w cycleList (y :: rest) := by
  induction later generalizing items with
  | nil => rw [h.eq, nil_append]
  | cons k later ih =>
    have hk : ¬ e.StopsAt (later ++ y :: rest).head? k := h.passed [] k _ h.eq (by simp)
    rw [h.eq, cons_append, breakCycle_passed hl cycleList hk]
    refine ih ⟨rfl, h.stops, fun later' y' rest' heq hlt => ?_⟩
    exact h.passed (k :: later') y' rest' (by rw [h.eq, cons_append, heq]; rfl) (by simpa using hlt)

theorem breakCycle_nowhere (hl : Linked e) (cycleList : List KeyType) {items : List KeyType}
    (h : ∀ later y rest, items = later ++ y :: rest → ¬ e.StopsAt rest.head? y) :
    e.breakCycle c w cycleList items = some (e, false) := by
  induction items with
  | nil => rfl
  | cons k items ih =>
    rw [breakCycle_passed hl cycleList (h [] k items rfl)]
    exact ih (fun later y rest heq => h (k :: later) y rest (by rw [heq]; rfl))

/-! ## What it does where it stops -/

variable (cycleList : List KeyType)

theorem breakCycle_scanning (rest : List KeyType) (hs : (e.ruleInfos y).isScanning = true) :
    e.breakCycle c w cycleList (y :: rest) =
      if c.shouldResolveCycle w cycleList y .forceBuild then some (e.forceBuild y, true)
      else some (e, false) := by
  unfold breakCycle
  simp only [if_pos hs]

/-- At the first element of the list there is no element before it. -/
theorem breakCycle_front (hs : (e.ruleInfos y).isScanning = false)
    (hw : (e.ruleInfos y).isInProgressWaiting = true) (hb : (e.ruleInfos y).result.builtAt ≠ 0) :
    e.breakCycle c w cycleList [y] = none := by
  unfold breakCycle
  simp only [hs, Bool.false_eq_true, if_false, waiting_iff.mpr ⟨hw, hb⟩, if_true]

theorem breakCycle_supply (rest : List KeyType) (hs : (e.ruleInfos y).isScanning = false)
    (hw : (e.ruleInfos y).isInProgressWaiting = true) (hb : (e.ruleInfos y).result.builtAt ≠ 0)
    (hr : e.HasRequest y x) :
    ∃ t ti r, (e.ruleInfos y).pendingTaskInfo = some t ∧ e.taskInfos t = some ti ∧ r ∈ ti.requestedBy ∧
      e.requestingRule r = some x ∧
      e.breakCycle c w cycleList (y :: x :: rest) =
        if c.shouldResolveCycle w cycleList y .supplyPriorValue then some (e.supplyPriorValue t r, true)
        else some (e, false) := by
  obtain ⟨t, ti, r₀, hpend, hti, hr₀, hreq₀⟩ := hr
  cases hfind : ti.requestedBy.find? (fun request => e.requestingRule request = some x) with
  | none => exact absurd hreq₀ (by simpa using find?_eq_none.mp hfind r₀ hr₀)
  | some r =>
    refine ⟨t, ti, r, hpend, hti, mem_of_find?_eq_some hfind, by simpa using find?_some hfind, ?_⟩
    unfold breakCycle
    simp only [hs, Bool.false_eq_true, if_false, waiting_iff.mpr ⟨hw, hb⟩, if_true, hpend, hti,
      map_some, getD_some, hfind]

/-! ## The graph afterwards -/

/-- A forced rule holds up nothing any more. -/
theorem not_edge_forceBuild (hl : Linked e) {record : RuleScanRecord} (hs : (e.ruleInfos y).isScanning = true)
    (hr : (e.ruleInfos y).pendingScanRecord = some record) (x : KeyType) :
    (y, x) ∉ (e.forceBuild y).successorGraph := by
  have hl' : Linked (e.forceBuild y) := by
    have hl₁ : Linked { e with ruleInfosToScan := (e.ruleInfosToScan.reverse.eraseP
        (fun (request : RuleScanRequest) => request.ruleInfo = y)).reverse } := hl.congr rfl rfl rfl rfl
    have hl₂ := hl₁.wakeScanRecord record .needsToRun hs (by simp) (by simp)
    simp only [forceBuild, finishScanRequest, hr]
    refine Linked.modifyResult ?_ y (fun _ => rfl) (fun _ => rfl) (fun _ => rfl)
    exact hl₂.congr rfl rfl rfl rfl
  have hrule : ((e.forceBuild y).ruleInfos y).state = .needsToRun ∧
      ((e.forceBuild y).ruleInfos y).pendingScanRecord = none := by
    simp [forceBuild, finishScanRequest, hr, wakeScanRecord, modifyRule, emit]
  rw [mem_successorGraph hl']
  rintro (⟨t, ti, hti, rfl, -⟩ | ⟨record', hr', -⟩)
  · have hp := (hl'.taskRule t ti hti).1
    simp [isInProgress, isInProgressWaiting, isInProgressComputing, hrule.1] at hp
  · rw [hrule.2] at hr'
    exact absurd hr' (by simp)

/-- The task of rule `y` has one request of the task of rule `x`, and no deferred scan of `x`. -/
def Engine.OnlyRequest (e : Engine T) (y x : KeyType) : Prop :=
  ∀ t ti, (e.ruleInfos y).pendingTaskInfo = some t → e.taskInfos t = some ti →
    ti.requestedBy.countP (fun r => e.requestingRule r = some x) = 1 ∧
      ∀ q ∈ ti.deferredScanRequests, q.ruleInfo ≠ x

theorem supplyPriorValue_taskInfos (r : TaskInputRequest) (ht : e.taskInfos t = some ti) :
    (e.supplyPriorValue t r).taskInfos
      = Function.update e.taskInfos t (some { ti with requestedBy := ti.requestedBy.erase r }) := by
  simp [supplyPriorValue, modifyTask, ht]

theorem requestingRule_supplyPriorValue (r q : TaskInputRequest) (ht : e.taskInfos t = some ti) :
    (e.supplyPriorValue t r).requestingRule q = e.requestingRule q := by
  unfold requestingRule
  rw [supplyPriorValue_taskInfos r ht]
  cases q.taskInfo with
  | none => rfl
  | some t' =>
    by_cases heq : t' = t
    · subst heq
      simp [ht]
    · simp [heq]

/-- Without the request that was served, the edge is left only by another one. -/
theorem edge_supplyPriorValue_iff (hl : Linked e) {r : TaskInputRequest}
    (hw : (e.ruleInfos y).isInProgressWaiting = true) (hpend : (e.ruleInfos y).pendingTaskInfo = some t)
    (ht : e.taskInfos t = some ti) (hmem : r ∈ ti.requestedBy) (hreq : e.requestingRule r = some x) :
    (y, x) ∉ (e.supplyPriorValue t r).successorGraph ↔ e.OnlyRequest y x := by
  have hprog : (e.ruleInfos y).isInProgress = true := by simp [isInProgress, hw]
  obtain ⟨ti', hti', hfor⟩ := hl.pendingTask hprog hpend
  obtain rfl : ti = ti' := some.inj (ht.symm.trans hti')
  have hl' : Linked (e.supplyPriorValue t r) := by
    have hl₁ : Linked { e with finishedInputRequests :=
        { r with forcePriorValue := true } :: e.finishedInputRequests } := hl.congr rfl rfl rfl rfl
    exact hl₁.modifyTask (t := t) (f := fun ti => { ti with requestedBy := ti.requestedBy.erase r })
      (fun _ _ => rfl) (fun _ _ hw => ⟨fun q hq => hw.1 q (mem_of_mem_erase hq), hw.2⟩)
  have hself : (e.supplyPriorValue t r).taskInfos t
      = some { ti with requestedBy := ti.requestedBy.erase r } := by
    rw [supplyPriorValue_taskInfos r ht, Function.update_self]
  have hnone : ((e.supplyPriorValue t r).ruleInfos y).pendingScanRecord = none :=
    (hl.rule y).record_eq_none (not_isScanning_of_isInProgress hprog)
  have hedge : (y, x) ∈ (e.supplyPriorValue t r).successorGraph ↔
      (∃ q ∈ ti.requestedBy.erase r, e.requestingRule q = some x) ∨
        ∃ q ∈ ti.deferredScanRequests, q.ruleInfo = x := by
    rw [mem_successorGraph hl']
    constructor
    · rintro (⟨t₁, ti₁, hti₁, hfor₁, hor⟩ | ⟨record, hrec, -⟩)
      · obtain rfl : t₁ = t := hl'.task_unique hti₁ hself (hfor₁.trans hfor.symm)
        cases hself.symm.trans hti₁
        simpa only [requestingRule_supplyPriorValue r _ ht] using hor
      · rw [hnone] at hrec
        exact absurd hrec (by simp)
    · intro hor
      refine .inl ⟨t, _, hself, hfor, ?_⟩
      simpa only [requestingRule_supplyPriorValue r _ ht] using hor
  have hcount : (∀ q ∈ ti.requestedBy.erase r, e.requestingRule q ≠ some x) ↔
      ti.requestedBy.countP (fun r => e.requestingRule r = some x) = 1 := by
    have hperm := (perm_cons_erase hmem).countP_eq (fun r => decide (e.requestingRule r = some x))
    rw [hperm, countP_cons_of_pos (by simpa using hreq), Nat.add_eq_right, countP_eq_zero]
    simp
  rw [hedge, not_or]
  constructor
  · rintro ⟨hreqs, hscans⟩ t₁ ti₁ hpend₁ hti₁
    cases hpend.symm.trans hpend₁
    cases ht.symm.trans hti₁
    exact ⟨hcount.mp (fun q hq heq => hreqs ⟨q, hq, heq⟩), fun q hq heq => hscans ⟨q, hq, heq⟩⟩
  · intro honly
    obtain ⟨hone, hscans⟩ := honly t ti hpend ht
    constructor
    · rintro ⟨q, hq, heq⟩
      exact hcount.mpr hone q hq heq
    · rintro ⟨q, hq, heq⟩
      exact hscans q hq heq

/-! ## Inside the closed part -/

/-- `x` and `y` are consecutive elements of the closed part of a reported list: the element the list ends
    with has been met by then. -/
def ClosedEdge (x y : KeyType) : Prop :=
  ∃ front back, cycleList = front ++ x :: y :: back ∧
    ∃ last, cycleList.getLast? = some last ∧ last ∈ front ++ [x]

/-- What cycle breaking does at rule `y`, on behalf of rule `x`. -/
inductive Engine.CycleAction (e : Engine T) (x y : KeyType) : Engine T → Prop where
  | forceBuild : (e.ruleInfos y).isScanning = true → CycleAction e x y (e.forceBuild y)
  | supplyPriorValue (t : TaskID) (ti : TaskInfo T) (r : TaskInputRequest) :
      (e.ruleInfos y).isInProgressWaiting = true → (e.ruleInfos y).result.builtAt ≠ 0 →
      (e.ruleInfos y).pendingTaskInfo = some t → e.taskInfos t = some ti → r ∈ ti.requestedBy →
      e.requestingRule r = some x → CycleAction e x y (e.supplyPriorValue t r)

/-- **What `breakCycle` is for**: it reads no element past the end of the list, and when it reports success
    it has acted on an edge of the closed part, which is gone. -/
def Engine.BreaksInside (c : Client T W) (w : W) (e : Engine T) (cycleList : List KeyType) : Prop :=
  ∃ e' b, e.breakCycle c w cycleList cycleList.reverse = some (e', b) ∧
    (b = true → ∃ x y, ClosedEdge cycleList x y ∧ (y, x) ∈ e.successorGraph ∧ e.CycleAction x y e' ∧
      (y, x) ∉ e'.successorGraph)

/-- The first element the walk stops at lies in the closed part, and if the delegate lets it supply a prior
    value there, nothing else holds the edge. -/
def Engine.StopsInside (c : Client T W) (w : W) (e : Engine T) (cycleList : List KeyType) : Prop :=
  ∀ later y rest, e.FirstStop cycleList.reverse later y rest →
    if (e.ruleInfos y).isScanning then
      c.shouldResolveCycle w cycleList y .forceBuild = true → ∃ last, cycleList.getLast? = some last ∧ last ∈ rest
    else
      ∃ x, rest.head? = some x ∧ (c.shouldResolveCycle w cycleList y .supplyPriorValue = true →
        (∃ last, cycleList.getLast? = some last ∧ last ∈ rest) ∧ e.OnlyRequest y x)

theorem Engine.CycleAction.stopsAt {e' : Engine T} (h : e.CycleAction x y e') :
    e.StopsAt (some x) y := by
  cases h with
  | forceBuild hs => exact .inl hs
  | supplyPriorValue t ti r hw hb hpend hti hr hreq =>
    refine .inr ⟨hw, hb, fun x' hx' => ?_⟩
    cases hx'
    exact ⟨t, ti, r, hpend, hti, hr, hreq⟩

theorem closedEdge_iff_reverse {cycleList : List KeyType} :
    ClosedEdge cycleList x y ↔ ∃ later rest, cycleList.reverse = later ++ y :: x :: rest ∧
      ∃ last, cycleList.getLast? = some last ∧ last ∈ x :: rest := by
  constructor
  · rintro ⟨front, back, rfl, last, hlast, hmem⟩
    refine ⟨back.reverse, front.reverse, by simp, last, hlast, ?_⟩
    simpa [or_comm] using hmem
  · rintro ⟨later, rest, heq, last, hlast, hmem⟩
    refine ⟨rest.reverse, later.reverse, ?_, last, hlast, ?_⟩
    · rw [← reverse_reverse cycleList, heq]
      simp
    · simpa [or_comm] using hmem

/-- An action inside the closed part comes no earlier than the first stop, so the first stop is inside too. -/
theorem Engine.FirstStop.closed {cycleList later : List KeyType} {x' y' : KeyType}
    (h : e.FirstStop cycleList.reverse later y rest) (hc : ClosedEdge cycleList x' y') (hs : e.StopsAt (some x') y') :
    ∃ last, cycleList.getLast? = some last ∧ last ∈ rest := by
  obtain ⟨later', rest', heq, last, hlast, hmem⟩ := closedEdge_iff_reverse.mp hc
  refine ⟨last, hlast, ?_⟩
  have hle : later.length ≤ later'.length := by
    by_contra hlt
    exact h.passed later' y' (x' :: rest') heq (not_le.mp hlt) hs
  -- what is ahead of the later position is ahead of the earlier one
  have hdrop : x' :: rest' = rest.drop (later'.length - later.length) := by
    have h₁ : cycleList.reverse.drop (later'.length + 1) = x' :: rest' := by
      rw [heq]
      simp
    have h₂ : cycleList.reverse.drop (later'.length + 1) = rest.drop (later'.length - later.length) := by
      rw [h.eq, drop_append, drop_eq_nil_of_le (by omega), nil_append,
        show later'.length + 1 - later.length = (later'.length - later.length) + 1 by omega,
        drop_succ_cons]
    exact h₁.symm.trans h₂
  rw [hdrop] at hmem
  exact mem_of_mem_drop hmem

theorem forceBuild_finishedInputRequests (e : Engine T) (k : KeyType) :
    (e.forceBuild k).finishedInputRequests = e.finishedInputRequests := by
  simp only [forceBuild, finishScanRequest]
  split
  · rfl
  · rfl

theorem supplyPriorValue_inj (hl : Linked e) {x' y' : KeyType} {r : TaskInputRequest}
    (hw : (e.ruleInfos y).isInProgressWaiting = true) (hpend : (e.ruleInfos y).pendingTaskInfo = some t)
    (ht : e.taskInfos t = some ti) (hmem : r ∈ ti.requestedBy) (hreq : e.requestingRule r = some x)
    (h : e.CycleAction x' y' (e.supplyPriorValue t r)) : x = x' ∧ y = y' := by
  have hrule : ∀ {y : KeyType} {t : TaskID} {ti : TaskInfo T} {r : TaskInputRequest},
      (e.ruleInfos y).isInProgressWaiting = true → (e.ruleInfos y).pendingTaskInfo = some t →
      e.taskInfos t = some ti → r ∈ ti.requestedBy → r.inputRuleInfo = y := by
    intro y t ti r hw hpend ht hmem
    obtain ⟨ti', hti', hfor⟩ := hl.pendingTask (by simp [isInProgress, hw]) hpend
    obtain rfl : ti = ti' := some.inj (ht.symm.trans hti')
    rw [(hl.task t ti ht).requestedBy r hmem, hfor]
  generalize he : e.supplyPriorValue t r = e' at h
  cases h with
  | forceBuild hs =>
    have hfin := congrArg (fun e => e.finishedInputRequests) he
    simp only [forceBuild_finishedInputRequests] at hfin
    exact absurd hfin (by simp [supplyPriorValue, modifyTask])
  | supplyPriorValue t' ti' r' hw' hb' hpend' hti' hr' hreq' =>
    have hfin := congrArg (fun e => e.finishedInputRequests.head?) he
    simp only [supplyPriorValue, modifyTask, head?_cons, some.injEq,
      TaskInputRequest.mk.injEq] at hfin
    obtain ⟨htask, -, hinput, -⟩ := hfin
    refine ⟨?_, (hrule hw hpend ht hmem).symm.trans (hinput.trans (hrule hw' hpend' hti' hr'))⟩
    have hsame : e.requestingRule r = e.requestingRule r' := by
      simp only [requestingRule, htask]
    exact some.inj (hreq.symm.trans (hsame.trans hreq'))

/-- Consecutive elements of a reported list are edges of the graph. -/
theorem ClosedEdge.edge {key : KeyType} (h : ClosedEdge (e.findCycle key) x y) :
    (y, x) ∈ e.successorGraph := by
  obtain ⟨front, back, heq, -⟩ := h
  cases hsearch : searchCycle e.predecessorGraph (e.ruleKeys.length + 2) [] key with
  | none =>
    rw [findCycle, hsearch] at heq
    exact absurd heq (by simp)
  | some cycle =>
    obtain ⟨rest, hcycle, hchain, -⟩ := searchCycle_some _ _ _ _ hsearch
    rw [nil_append] at hcycle
    rw [← hcycle] at hchain
    rw [findCycle, hsearch, getD_some] at heq
    rw [heq] at hchain
    have hxy := (isChain_append.mp hchain).2.1
    exact mem_predecessorGraph.mp (isChain_cons_cons.mp hxy).1

theorem record_of_not_dangling (hl : Linked e) (hd : e.hasDanglingRecord = false)
    (hs : (e.ruleInfos y).isScanning = true) :
    ∃ record, (e.ruleInfos y).pendingScanRecord = some record := by
  refine ne_none_iff_exists'.mp (fun hnone => ?_)
  have hkey : y ∈ e.ruleKeys := by
    by_contra hmem
    simp [isScanning, (hl.keys y hmem).1] at hs
  have hdang : e.hasDanglingRecord = true := any_eq_true.mpr ⟨y, hkey, by simp [hs, hnone]⟩
  rw [hd] at hdang
  exact absurd hdang (by simp)

/-- **Cycle breaking.** `breakCycle` stays inside the reported list, and breaks its closed part when it
    reports success, exactly if the first element it stops at lies in the closed part, and a prior value it
    supplies there answers the only request along that edge. -/
theorem breakCycle_inside_iff {e : Engine T} (hl : Linked e) (hd : e.hasDanglingRecord = false)
    (key : KeyType) :
    e.BreaksInside c w (e.findCycle key) ↔ e.StopsInside c w (e.findCycle key) := by
  generalize hlist : e.findCycle key = cycleList
  constructor
  · rintro ⟨e', b, hbreak, hacts⟩ later y rest hfirst
    rw [breakCycle_firstStop hl cycleList hfirst] at hbreak
    cases hs : (e.ruleInfos y).isScanning with
    | true =>
      rw [if_pos rfl]
      intro hagree
      rw [breakCycle_scanning cycleList rest hs, if_pos hagree] at hbreak
      cases hbreak
      obtain ⟨x', y', hclosed, -, haction, -⟩ := hacts rfl
      exact hfirst.closed hclosed haction.stopsAt
    | false =>
      rw [if_neg (by simp)]
      obtain ⟨hw, hb, hreq⟩ := hfirst.stops.resolve_left (by simp [hs])
      cases rest with
      | nil =>
        rw [breakCycle_front cycleList hs hw hb] at hbreak
        exact absurd hbreak (by simp)
      | cons x rest =>
        refine ⟨x, rfl, fun hagree => ?_⟩
        obtain ⟨t, ti, r, hpend, hti, hr, hrx, heq⟩ :=
          breakCycle_supply (c := c) (w := w) cycleList rest hs hw hb (hreq x rfl)
        rw [heq, if_pos hagree] at hbreak
        cases hbreak
        obtain ⟨x', y', hclosed, -, haction, hgone⟩ := hacts rfl
        obtain ⟨rfl, rfl⟩ := supplyPriorValue_inj hl hw hpend hti hr hrx haction
        exact ⟨hfirst.closed hclosed haction.stopsAt,
          (edge_supplyPriorValue_iff hl hw hpend hti hr hrx).mp hgone⟩
  · intro hinside
    rcases firstStop_or e cycleList.reverse with hnone | ⟨later, y, rest, hfirst⟩
    · exact ⟨e, false, breakCycle_nowhere hl cycleList hnone, fun h => absurd h (by simp)⟩
    have hin := hinside later y rest hfirst
    -- the edge to the element ahead, when that is inside the closed part
    have hclosed : ∀ x rest', rest = x :: rest' →
        (∃ last, cycleList.getLast? = some last ∧ last ∈ rest) → ClosedEdge cycleList x y := by
      rintro x rest' rfl hlast
      exact closedEdge_iff_reverse.mpr ⟨later, rest', hfirst.eq, hlast⟩
    have hedge : ∀ x, ClosedEdge cycleList x y → (y, x) ∈ e.successorGraph := by
      intro x hx
      rw [← hlist] at hx
      exact hx.edge
    unfold BreaksInside
    rw [breakCycle_firstStop hl cycleList hfirst]
    cases hs : (e.ruleInfos y).isScanning with
    | true =>
      rw [if_pos hs] at hin
      rw [breakCycle_scanning cycleList rest hs]
      split_ifs with hagree
      · obtain ⟨last, hlast, hmem⟩ := hin hagree
        obtain ⟨record, hrec⟩ := record_of_not_dangling hl hd hs
        cases rest with
        | nil => exact absurd hmem (by simp)
        | cons x rest =>
          have hx := hclosed x rest rfl ⟨last, hlast, hmem⟩
          exact ⟨_, _, rfl, fun _ => ⟨x, y, hx, hedge x hx, .forceBuild hs, not_edge_forceBuild hl hs hrec x⟩⟩
      · exact ⟨_, _, rfl, fun h => absurd h (by simp)⟩
    | false =>
      rw [if_neg (by simp [hs])] at hin
      obtain ⟨hw, hb, hreq⟩ := hfirst.stops.resolve_left (by simp [hs])
      obtain ⟨x, hx, hagreed⟩ := hin
      cases rest with
      | nil => exact absurd hx (by simp)
      | cons x' rest =>
        obtain rfl : x' = x := by simpa using hx
        obtain ⟨t, ti, r, hpend, hti, hr, hrx, heq⟩ :=
          breakCycle_supply (c := c) (w := w) cycleList rest hs hw hb (hreq x' rfl)
        rw [heq]
        split_ifs with hagree
        · obtain ⟨hlast, honly⟩ := hagreed hagree
          have hx' := hclosed x' rest rfl hlast
          exact ⟨_, _, rfl, fun _ => ⟨x', y, hx', hedge x' hx',
            .supplyPriorValue t ti r hw hb hpend hti hr hrx,
            (edge_supplyPriorValue_iff hl hw hpend hti hr hrx).mpr honly⟩⟩
        · exact ⟨_, _, rfl, fun h => absurd h (by simp)⟩

/-- `[1]` and `[2]` request each other, `[2]` has a prior result, and the delegate agrees to everything. -/
def agreeingClient : Client KeyType Unit :=
  { mutualClient with shouldResolveCycle := fun _ _ _ _ => true }

def priorRun : Option (Machine KeyType) :=
  Machine.run agreeingClient (Machine.init (some
      { results := fun k => if k = [2] then some { value := [2], signature := 5, builtAt := 1 } else none
        iteration := 1 }))
    (.build [1] :: List.replicate 16 (.work ()))

/-- The prior value of `[2]` is supplied to `[1]`. -/
theorem breakCycle_inside_prior :
    ∃ m, priorRun = some m ∧ m.engine.findCycle [1] = [[1], [2], [1]] ∧
      ((m.engine.breakCycle agreeingClient () [[1], [2], [1]] [[1], [2], [1]]).map Prod.snd) = some true ∧
      m.engine.BreaksInside agreeingClient () (m.engine.findCycle [1]) := by
  have hsome : priorRun.map (fun m => ((m.phase, m.engine.hasDanglingRecord, m.engine.findCycle [1]),
      (m.engine.breakCycle agreeingClient () [[1], [2], [1]] [[1], [2], [1]]).map Prod.snd,
      ((m.engine.ruleInfos [1]).isScanning, (m.engine.ruleInfos [2]).isScanning,
        (m.engine.ruleInfos [1]).result.builtAt))) =
      some ((.executeTasks [1] .wait false, false, [[1], [2], [1]]), some true, (false, false, 0)) := by
    decide +kernel
  have htasks : priorRun.map (fun m => ((m.engine.ruleInfos [2]).pendingTaskInfo,
      (m.engine.taskInfos 1).map (fun ti =>
        (ti.requestedBy.countP (fun r => m.engine.requestingRule r = some [1]), ti.deferredScanRequests)))) =
      some (some 1, some (1, [])) := by
    decide +kernel
  obtain ⟨m, hm, heq⟩ := map_eq_some_iff.mp hsome
  simp only [Prod.mk.injEq] at heq
  obtain ⟨⟨hphase, hdang, hcycle⟩, htrue, ⟨hs₁, hs₂, hb₁⟩⟩ := heq
  rw [hm, map_some, some.injEq, Prod.mk.injEq] at htasks
  obtain ⟨hpend, htask⟩ := htasks
  have hr : m.Reachable agreeingClient :=
    ⟨_, Machine.reachable_run _ _ m (fun _ _ _ => trivial) .refl hm⟩
  obtain ⟨hs, -, -⟩ := waits_of_reachable hr hphase (by simp)
  refine ⟨m, hm, hcycle, htrue, (breakCycle_inside_iff hs.linked hdang [1]).mpr ?_⟩
  have hnot : ∀ next, ¬ m.engine.StopsAt next [1] := by
    rintro next (hscan | ⟨-, hb, -⟩)
    · rw [hs₁] at hscan
      exact absurd hscan (by simp)
    · exact hb hb₁
  intro later y rest hfirst
  have heq := hfirst.eq
  rw [hcycle] at heq ⊢
  match later, heq with
  | [], heq =>
    cases heq
    exact absurd hfirst.stops (hnot _)
  | [_], heq =>
    cases (List.cons.inj heq).2
    rw [if_neg (by simp [hs₂])]
    refine ⟨[1], rfl, fun _ => ⟨⟨[1], rfl, mem_singleton_self _⟩, fun t ti ht hti => ?_⟩⟩
    rw [hpend] at ht
    cases ht
    rw [hti, map_some, some.injEq, Prod.mk.injEq] at htask
    exact ⟨htask.1, fun q hq => absurd (htask.2 ▸ hq) (by simp)⟩
  | [_, _], heq =>
    cases (List.cons.inj (List.cons.inj heq).2).2
    exact absurd hfirst.stops (hnot _)
  | _ :: _ :: _ :: _, heq => simp at heq

/-- `[1]` requests `[2]`, and `[2]` and `[3]` request each other. -/
def pathClient : Client KeyType Unit :=
  fixedClient (fun k => if k = [1] then [[2]] else if k = [2] then [[3]] else if k = [3] then [[2]] else [])

/-- Only the key to build has a prior result. -/
def pathRun : Option (Machine KeyType) :=
  Machine.run pathClient (Machine.init (some
      { results := fun k => if k = [1] then some { value := [1], signature := 5, builtAt := 1 } else none
        iteration := 1 }))
    (.build [1] :: List.replicate 17 (.work ()))

/-- The walk passes the cycle and looks for the element before the first one. -/
theorem breakCycle_past_front :
    ¬ ∀ (c : Client KeyType Unit) (m : Machine KeyType) (key : KeyType), m.Reachable c →
      m.phase = .executeTasks key .wait false → m.engine.hasDanglingRecord = false →
      m.engine.BreaksInside c () (m.engine.findCycle key) := by
  intro h
  have hsome : pathRun.map (fun m => (m.phase, m.engine.hasDanglingRecord,
      (m.engine.breakCycle pathClient () (m.engine.findCycle [1]) (m.engine.findCycle [1]).reverse).isSome)) =
      some (.executeTasks [1] .wait false, false, false) := by
    decide +kernel
  obtain ⟨m, hm, heq⟩ := map_eq_some_iff.mp hsome
  simp only [Prod.mk.injEq] at heq
  obtain ⟨hphase, hdang, hnone⟩ := heq
  have hr : m.Reachable pathClient :=
    ⟨_, Machine.reachable_run _ _ m (fun _ _ _ => trivial) .refl hm⟩
  obtain ⟨e', b, hbreak, -⟩ := h pathClient m [1] hr hphase hdang
  rw [hbreak] at hnone
  exact absurd hnone (by simp)

end Builra
