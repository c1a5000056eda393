import Builra.Core.Run

namespace Builra

open List Engine

/-!
# `Core.Waits` — what waits for what

Every scan request sits in one of four places, names a dependency of its rule and is never lost while the
rule is being scanned; the request for the key to build is pending until the key is demanded. From this the
shape of a state without work follows: whatever is not complete waits for something that is not complete.
-/

variable {T W : Type} {c : Client T W} {w : W}

open Engine

variable (e : Engine T)

/-- A scan request is queued, held, or deferred at a scanning rule or at a task. -/
def Engine.ScanPending (h : Held) (q : RuleScanRequest) : Prop :=
  q ∈ e.ruleInfosToScan ∨ h.item = .scanRequest q ∨
  (∃ k record, (e.ruleInfos k).pendingScanRecord = some record ∧ q ∈ record.deferredScanRequests) ∨
  (∃ t ti, e.taskInfos t = some ti ∧ q ∈ ti.deferredScanRequests)

/-- An input request for rule `k` that was not yet recorded: queued, held, or paused. -/
def Engine.InputPending (h : Held) (k : KeyType) : Prop :=
  (∃ r ∈ e.inputRequests, r.inputRuleInfo = k) ∨ (∃ r, h.item = .inputRequest r ∧ r.inputRuleInfo = k) ∨
  (∃ record, (e.ruleInfos k).pendingScanRecord = some record ∧
    ∃ r ∈ record.pausedInputRequests, r.inputRuleInfo = k)

/-- **No scan and no root request is lost.** -/
structure Waits (key : KeyType) (e : Engine T) (h : Held) : Prop where
  touched : ∀ q, e.ScanPending h q → ¬ (e.ruleInfos q.ruleInfo).Untouched e.currentEpoch
  /-- The input of a scan request is the dependency it points at. -/
  placed : ∀ q x, e.ScanPending h q → (e.ruleInfos q.ruleInfo).isScanning = true →
    q.inputRuleInfo = some x →
    ∃ d, (e.ruleInfos q.ruleInfo).result.dependencies[q.inputIndex]? = some d ∧ d.keyID = x
  live : ∀ k, (e.ruleInfos k).isScanning = true → (e.ruleInfos k).pendingScanRecord ≠ none →
    ∃ q, e.ScanPending h q ∧ q.ruleInfo = k
  rooted : e.InputPending h key ∨ (e.ruleInfos key).Done e.currentEpoch ∨
    (e.ruleInfos key).isInProgress = true

/-! ## How the moves transport scan requests -/

/-- What a move does to the pending scan requests: each one that is pending afterwards was pending before,
    up to looking up or advancing its input, or belongs to a scan that starts; and a scan that goes on keeps
    one. -/
structure ScanTransport (e : Engine T) (h : Held) (e' : Engine T) (h' : Held) : Prop where
  back : ∀ q, e'.ScanPending h' q →
    (∃ q₀, e.ScanPending h q₀ ∧ q₀.ruleInfo = q.ruleInfo ∧
      (q.inputRuleInfo = none ∨ q = q₀ ∨
        ∃ d, (e.ruleInfos q.ruleInfo).result.dependencies[q.inputIndex]? = some d ∧
          q.inputRuleInfo = some d.keyID)) ∨
    ((e.ruleInfos q.ruleInfo).Untouched e.currentEpoch ∧
      (e'.ruleInfos q.ruleInfo).isScanning = true ∧ q.inputRuleInfo = none)
  forth : ∀ q, e.ScanPending h q → (e'.ruleInfos q.ruleInfo).isScanning = true →
    ∃ q', e'.ScanPending h' q' ∧ q'.ruleInfo = q.ruleInfo
  fresh : ∀ k, (e.ruleInfos k).Untouched e.currentEpoch → (e'.ruleInfos k).isScanning = true →
    ∃ q', e'.ScanPending h' q' ∧ q'.ruleInfo = k

/-- The scan requests deferred at a rule. -/
def RuleInfo.deferredScans (r : RuleInfo) : List RuleScanRequest :=
  (r.pendingScanRecord.map (fun record => record.deferredScanRequests)).getD []

/-- The scan requests deferred at a task. -/
def Engine.deferredScans (t : TaskID) : List RuleScanRequest :=
  ((e.taskInfos t).map (fun ti => ti.deferredScanRequests)).getD []

variable {e e' : Engine T} {h h' : Held} {record : RuleScanRecord} {k key : KeyType}

theorem scanPending_iff {q : RuleScanRequest} :
    e.ScanPending h q ↔ q ∈ e.ruleInfosToScan ∨ h.item = .scanRequest q ∨
      (∃ k, q ∈ (e.ruleInfos k).deferredScans) ∨ ∃ t, q ∈ e.deferredScans t := by
  have hrec : ∀ k, (∃ record, (e.ruleInfos k).pendingScanRecord = some record ∧
      q ∈ record.deferredScanRequests) ↔ q ∈ (e.ruleInfos k).deferredScans := by
    intro k
    unfold RuleInfo.deferredScans
    cases (e.ruleInfos k).pendingScanRecord <;> simp
  have htask : ∀ t, (∃ ti, e.taskInfos t = some ti ∧ q ∈ ti.deferredScanRequests) ↔
      q ∈ e.deferredScans t := by
    intro t
    unfold deferredScans
    cases e.taskInfos t <;> simp
  unfold ScanPending
  simp only [hrec, htask]

theorem deferredScans_of_record {r : RuleInfo} (h : r.pendingScanRecord = some record) :
    r.deferredScans = record.deferredScanRequests := by
  simp [RuleInfo.deferredScans, h]

/-- No scan starts if no record appears. -/
theorem RuleFrame.no_scan_starts (hf : RuleFrame c w e e') (hl : Linked e)
    (hr : ∀ k, (e'.ruleInfos k).pendingScanRecord ≠ none → (e.ruleInfos k).pendingScanRecord ≠ none)
    (hu : (e.ruleInfos k).Untouched e.currentEpoch) :
    (e'.ruleInfos k).isScanning = false := by
  by_contra hk
  have hnone := (hl.rule k).record_eq_none hu.2
  rcases hf.scanning (by simpa using hk) with ⟨hs, -, -⟩ | ⟨-, -, -, -, hrec⟩
  · rw [hu.2] at hs
    exact absurd hs (by simp)
  · exact hr k hrec hnone

/-- A move that loses no scan request and starts no scan. -/
theorem ScanTransport.of_iff (hf : RuleFrame c w e e') (hl : Linked e)
    (hr : ∀ k, (e'.ruleInfos k).pendingScanRecord ≠ none → (e.ruleInfos k).pendingScanRecord ≠ none)
    (hiff : ∀ q, e'.ScanPending h' q ↔ e.ScanPending h q) : ScanTransport e h e' h' := by
  refine ⟨fun q hq => .inl ⟨q, (hiff q).mp hq, rfl, .inr (.inl rfl)⟩,
    fun q hq _ => ⟨q, (hiff q).mpr hq, rfl⟩, fun k hu hk => ?_⟩
  rw [hf.no_scan_starts hl hr hu] at hk
  exact absurd hk (by simp)

/-- A move that leaves the scan requests where they are. -/
theorem ScanTransport.of_frame (hf : RuleFrame c w e e') (hl : Linked e) (hq : e'.ruleInfosToScan = e.ruleInfosToScan)
    (hi : ∀ q, h'.item = .scanRequest q ↔ h.item = .scanRequest q)
    (hr : ∀ k, (e'.ruleInfos k).pendingScanRecord = (e.ruleInfos k).pendingScanRecord ∨
      ((e.ruleInfos k).pendingScanRecord ≠ none ∧
        (e'.ruleInfos k).deferredScans = (e.ruleInfos k).deferredScans))
    (ht : ∀ t, e'.deferredScans t = e.deferredScans t) : ScanTransport e h e' h' := by
  have hdef : ∀ k, (e'.ruleInfos k).deferredScans = (e.ruleInfos k).deferredScans := by
    intro k
    rcases hr k with heq | ⟨-, heq⟩
    · unfold RuleInfo.deferredScans; rw [heq]
    · exact heq
  refine .of_iff hf hl (fun k hne => ?_) (fun q => ?_)
  · rcases hr k with heq | ⟨hne', -⟩
    · rw [← heq]; exact hne
    · exact hne'
  · rw [scanPending_iff, scanPending_iff, hq, hi]
    simp only [hdef, ht]

/-- Writing to a rule without touching its record. -/
theorem record_modifyRule {f : RuleInfo → RuleInfo}
    (h : (f (e.ruleInfos k)).pendingScanRecord = (e.ruleInfos k).pendingScanRecord) (k' : KeyType) :
    ((e.modifyRule k f).ruleInfos k').pendingScanRecord = (e.ruleInfos k').pendingScanRecord := by
  by_cases hk : k' = k
  · subst hk; rw [modifyRule_ruleInfos_self, h]
  · rw [modifyRule_ruleInfos_ne e f hk]

/-- Writing to a task without touching its deferred scan requests. -/
theorem deferredScans_modifyTask {t : TaskID} {f : TaskInfo T → TaskInfo T}
    (h : ∀ ti, (f ti).deferredScanRequests = ti.deferredScanRequests) (t' : TaskID) :
    (e.modifyTask t f).deferredScans t' = e.deferredScans t' := by
  unfold deferredScans
  by_cases heq : t' = t
  · subst heq
    cases ht : e.taskInfos t' <;> simp [modifyTask, ht, h]
  · simp [modifyTask, heq]

theorem record_recordDependency (e : Engine T) (k : KeyType) (request : TaskInputRequest) (k' : KeyType) :
    ((e.recordDependency k request).ruleInfos k').pendingScanRecord
      = (e.ruleInfos k').pendingScanRecord :=
  record_modifyRule rfl k'

theorem record_setComputing (e : Engine T) (k k' : KeyType) :
    ((e.modifyRule k (fun r => { r with state := .inProgressComputing })).ruleInfos k').pendingScanRecord
      = (e.ruleInfos k').pendingScanRecord :=
  record_modifyRule rfl k'

theorem deferredScans_write {f : RuleInfo → RuleInfo} (k' : KeyType) :
    ((e.modifyRule k f).ruleInfos k').deferredScans =
      if k' = k then (f (e.ruleInfos k)).deferredScans else (e.ruleInfos k').deferredScans := by
  split_ifs with hk
  · subst hk; rw [modifyRule_ruleInfos_self]
  · rw [modifyRule_ruleInfos_ne e f hk]

/-- Waking a scan record: what was deferred at the rule is queued, and the rule is scanned. -/
theorem ScanTransport.wakeScanRecord (hf : RuleFrame c w e e') (hl : Linked e)
    (hitem : ∀ q, h.item = .scanRequest q → q.ruleInfo = k) (hrec : (e.ruleInfos k).pendingScanRecord = some record)
    (hq : e'.ruleInfosToScan = record.deferredScanRequests.reverse ++ e.ruleInfosToScan)
    (hk : (e'.ruleInfos k).pendingScanRecord = none) (hks : (e'.ruleInfos k).isScanning = false)
    (hne : ∀ k', k' ≠ k → e'.ruleInfos k' = e.ruleInfos k') (ht : ∀ t, e'.deferredScans t = e.deferredScans t) :
    ScanTransport e h e' {} := by
  have hdef : ∀ k', (e'.ruleInfos k').deferredScans =
      if k' = k then [] else (e.ruleInfos k').deferredScans := by
    intro k'
    split_ifs with heq
    · subst heq; simp [RuleInfo.deferredScans, hk]
    · rw [hne k' heq]
  refine ⟨fun q hpend => .inl ⟨q, ?_, rfl, .inr (.inl rfl)⟩, fun q hpend hs => ⟨q, ?_, rfl⟩,
    fun k' hu hk' => ?_⟩
  · rw [scanPending_iff] at hpend ⊢
    simp only [hq, mem_append, mem_reverse, hdef, ht] at hpend
    rcases hpend with (hmem | hmem) | hheld | ⟨k', hmem⟩ | hmem
    · exact .inr (.inr (.inl ⟨k, by rw [deferredScans_of_record hrec]; exact hmem⟩))
    · exact .inl hmem
    · exact absurd hheld (by simp)
    · split_ifs at hmem
      · exact absurd hmem (by simp)
      · exact .inr (.inr (.inl ⟨k', hmem⟩))
    · exact .inr (.inr (.inr hmem))
  · rw [scanPending_iff] at hpend ⊢
    simp only [hq, mem_append, mem_reverse, hdef, ht]
    rcases hpend with hmem | hheld | ⟨k', hmem⟩ | hmem
    · exact .inl (.inr hmem)
    · rw [hitem q hheld, hks] at hs
      exact absurd hs (by simp)
    · by_cases heq : k' = k
      · subst heq
        rw [deferredScans_of_record hrec] at hmem
        exact .inl (.inl hmem)
      · exact .inr (.inr (.inl ⟨k', by rw [if_neg heq]; exact hmem⟩))
    · exact .inr (.inr (.inr hmem))
  · rw [hf.no_scan_starts hl (fun k'' hne'' => ?_) hu] at hk'
    · exact absurd hk' (by simp)
    · by_cases heq : k'' = k
      · subst heq; exact absurd hk hne''
      · rw [← hne k'' heq]; exact hne''

/-- A popped scan request is dropped, looked up or advanced, or put somewhere else. -/
theorem ScanTransport.replaceHeld {q : RuleScanRequest} (hf : RuleFrame c w e e') (hl : Linked e)
    (hr : ∀ k, (e'.ruleInfos k).pendingScanRecord ≠ none → (e.ruleInfos k).pendingScanRecord ≠ none)
    (hq : e'.ruleInfosToScan = e.ruleInfosToScan)
    (hback : ∀ q', (h'.item = .scanRequest q' ∨ (∃ k, q' ∈ (e'.ruleInfos k).deferredScans) ∨
        ∃ t, q' ∈ e'.deferredScans t) →
      ((∃ k, q' ∈ (e.ruleInfos k).deferredScans) ∨ ∃ t, q' ∈ e.deferredScans t) ∨
      (q'.ruleInfo = q.ruleInfo ∧ (q'.inputRuleInfo = none ∨ q' = q ∨
        ∃ d, (e.ruleInfos q'.ruleInfo).result.dependencies[q'.inputIndex]? = some d ∧
          q'.inputRuleInfo = some d.keyID)))
    (hforth : ∀ q', ((∃ k, q' ∈ (e.ruleInfos k).deferredScans) ∨ ∃ t, q' ∈ e.deferredScans t) →
      (∃ k, q' ∈ (e'.ruleInfos k).deferredScans) ∨ ∃ t, q' ∈ e'.deferredScans t)
    (hself : (e'.ruleInfos q.ruleInfo).isScanning = true → ∃ q', (h'.item = .scanRequest q' ∨
      (∃ k, q' ∈ (e'.ruleInfos k).deferredScans) ∨ ∃ t, q' ∈ e'.deferredScans t) ∧
      q'.ruleInfo = q.ruleInfo) :
    ScanTransport e { item := .scanRequest q } e' h' := by
  refine ⟨fun q' hp => .inl ?_, fun q' hp hs => ?_, fun k hu hk => ?_⟩
  · rw [scanPending_iff, hq] at hp
    rcases hp with hmem | hother
    · exact ⟨q', scanPending_iff.mpr (.inl hmem), rfl, .inr (.inl rfl)⟩
    · rcases hback q' hother with hold | ⟨hrule, hcase⟩
      · exact ⟨q', scanPending_iff.mpr (.inr (.inr hold)), rfl, .inr (.inl rfl)⟩
      · exact ⟨q, scanPending_iff.mpr (.inr (.inl rfl)), hrule.symm, hcase⟩
  · rw [scanPending_iff] at hp
    rcases hp with hmem | hheld | hold
    · exact ⟨q', scanPending_iff.mpr (.inl (by rw [hq]; exact hmem)), rfl⟩
    · obtain rfl : q = q' := by simpa using hheld
      obtain ⟨q'', hq'', hrule⟩ := hself hs
      exact ⟨q'', scanPending_iff.mpr (.inr hq''), hrule⟩
    · exact ⟨q', scanPending_iff.mpr (.inr (.inr (hforth q' hold))), rfl⟩
  · rw [hf.no_scan_starts hl hr hu] at hk
    exact absurd hk (by simp)

/-- **Every move transports the pending scan requests.** -/
theorem Micro.scanTransport (hm : Micro c w (e, h) (e', h')) (hl : Linked e) : ScanTransport e h e' h' := by
  have hf := hm.ruleFrame hl
  cases hm with
  | cleanRule k _ | scanNeedsToRun k _ _ | scanUpToDate k _ _ _ | markUpToDate k _ =>
    exact .of_frame hf hl rfl (fun _ => Iff.rfl)
      (fun k' => .inl (record_modifyRule (by rfl) k')) (fun _ => rfl)
  | scanScheduled k hu _ _ _ =>
    set e' := { e.modifyRule k (fun r =>
        { r with state := .isScanning, pendingScanRecord := some {} }) with
      ruleInfosToScan :=
        { ruleInfo := k, inputIndex := 0, inputRuleInfo := none } :: e.ruleInfosToScan } with he'
    have hnone := (hl.rule k).record_eq_none hu.2
    have hdef : ∀ k', (e'.ruleInfos k').deferredScans = (e.ruleInfos k').deferredScans := by
      intro k'
      by_cases hk : k' = k
      · subst hk; simp [he', modifyRule, RuleInfo.deferredScans, hnone]
      · simp [he', modifyRule, hk]
    have hiff : ∀ q, e'.ScanPending h q ↔
        q = { ruleInfo := k, inputIndex := 0, inputRuleInfo := none } ∨ e.ScanPending h q := by
      intro q
      rw [scanPending_iff, scanPending_iff]
      simp only [hdef]
      show q ∈ _ :: e.ruleInfosToScan ∨ _ ∨ _ ∨ (∃ t, q ∈ e.deferredScans t) ↔ _
      rw [mem_cons, or_assoc]
    refine ⟨fun q hq => ?_, fun q hq _ => ⟨q, (hiff q).mpr (.inr hq), rfl⟩, fun k' hu' hk' => ?_⟩
    · rcases (hiff q).mp hq with rfl | hold
      · exact .inr ⟨hu, by simp [he', modifyRule, RuleInfo.isScanning], rfl⟩
      · exact .inl ⟨q, hold, rfl, .inr (.inl rfl)⟩
    · by_cases hk : k' = k
      · exact ⟨_, (hiff _).mpr (.inl rfl), hk.symm⟩
      · simp only [he', modifyRule, Function.update_of_ne hk, hu'.2, Bool.false_eq_true] at hk'
  | registerTask k _ _ =>
    refine .of_frame hf hl rfl (fun _ => Iff.rfl) (fun k' => .inl (record_modifyRule (e := e) (k := k)
      (f := fun r =>
        { r with
          state := .inProgressWaiting, pendingTaskInfo := some e.nextTask,
          result := { r.result with dependencies := [] } }) rfl k')) (fun t => ?_)
    by_cases ht : t = e.nextTask
    · subst ht
      simp [deferredScans, Engine.registerTask, modifyRule, emit, hl.fresh e.nextTask le_rfl]
    · simp [deferredScans, Engine.registerTask, modifyRule, emit, ht]
  | start item t ti _ _ _ _ | providePriorValue t ti value _ _ | provideValue request t ti _ _ _
  | callRequest t ti call request _ _ _ | supplyPriorValue t ti request _ _ _ _ =>
    exact .of_frame hf hl rfl (fun _ => Iff.rfl) (fun _ => .inl rfl)
      (deferredScans_modifyTask (fun _ => rfl))
  | popScan request rest hq =>
    refine .of_iff hf hl (fun k hne => hne) (fun q => ?_)
    rw [scanPending_iff, scanPending_iff]
    show q ∈ rest ∨ _ ∨ (∃ k, q ∈ (e.ruleInfos k).deferredScans) ∨ (∃ t, q ∈ e.deferredScans t) ↔ _
    rw [hq, mem_cons]
    simp only [HeldItem.scanRequest.injEq, reduceCtorEq, false_or]
    rw [eq_comm]
    tauto
  | dropScan request hns =>
    refine .replaceHeld hf hl (fun k hne => hne) rfl (fun q' h => .inl ?_) (fun q' h => h) (fun hs => ?_)
    · exact h.resolve_left (by simp)
    · rw [hns] at hs
      exact absurd hs (by simp)
  | lookupScanInput request d _ _ hd =>
    refine .replaceHeld hf hl (fun k hne => hne) rfl (fun q' h => ?_) (fun q' h => h)
      (fun _ => ⟨request.lookup d, .inl rfl, rfl⟩)
    rcases h with heq | h
    · obtain rfl : request.lookup d = q' := by simpa using heq
      exact .inr ⟨rfl, .inr (.inr ⟨d, hd, rfl⟩)⟩
    · exact .inl h
  | deferOnScan request input record _ hin _ hrec =>
    have hdef : ∀ k', ((e.modifyRule input (fun r => r.deferScan record request)).ruleInfos k').deferredScans
        = if k' = input then record.deferredScanRequests ++ [request]
          else (e.ruleInfos k').deferredScans := fun k' => deferredScans_write k'
    refine .replaceHeld hf hl (fun k hne => ?_) rfl (fun q' h => ?_) (fun q' h => ?_) (fun _ => ?_)
    · by_cases hk : k = input
      · subst hk; simp [hrec]
      · rw [modifyRule_ruleInfos_ne e _ hk] at hne; exact hne
    · rcases h with hheld | ⟨k, hmem⟩ | hmem
      · exact absurd hheld (by simp)
      · rw [hdef] at hmem
        split_ifs at hmem with hk
        · rcases mem_append.mp hmem with hmem | hmem
          · exact .inl (.inl ⟨k, by rw [hk, deferredScans_of_record hrec]; exact hmem⟩)
          · obtain rfl := mem_singleton.mp hmem
            exact .inr ⟨rfl, .inr (.inl rfl)⟩
        · exact .inl (.inl ⟨k, hmem⟩)
      · exact .inl (.inr hmem)
    · rcases h with ⟨k, hmem⟩ | hmem
      · refine .inl ⟨k, ?_⟩
        rw [hdef]
        split_ifs with hk
        · rw [hk, deferredScans_of_record hrec] at hmem
          exact mem_append_left _ hmem
        · exact hmem
      · exact .inr hmem
    · exact ⟨request, .inr (.inl ⟨input, by rw [hdef, if_pos rfl]; simp⟩), rfl⟩
  | deferOnTask request input t _ hin hp ht =>
    obtain ⟨ti, hti, -⟩ := hl.pendingTask hp ht
    have hdef : ∀ t', (e.modifyTask t (fun ti =>
        { ti with deferredScanRequests := ti.deferredScanRequests ++ [request] })).deferredScans t'
        = if t' = t then e.deferredScans t ++ [request] else e.deferredScans t' := by
      intro t'
      split_ifs with heq
      · subst heq; simp [deferredScans, modifyTask, hti]
      · simp [deferredScans, modifyTask, heq]
    refine .replaceHeld hf hl (fun k hne => hne) rfl (fun q' h => ?_) (fun q' h => ?_) (fun _ => ?_)
    · rcases h with hheld | hmem | ⟨t', hmem⟩
      · exact absurd hheld (by simp)
      · exact .inl (.inl hmem)
      · rw [hdef] at hmem
        split_ifs at hmem with heq
        · rcases mem_append.mp hmem with hmem | hmem
          · exact .inl (.inr ⟨t, hmem⟩)
          · obtain rfl := mem_singleton.mp hmem
            exact .inr ⟨rfl, .inr (.inl rfl)⟩
        · exact .inl (.inr ⟨t', hmem⟩)
    · rcases h with hmem | ⟨t', hmem⟩
      · exact .inl hmem
      · refine .inr ⟨t', ?_⟩
        rw [hdef]
        split_ifs with heq
        · rw [heq] at hmem
          exact mem_append_left _ hmem
        · exact hmem
    · exact ⟨request, .inr (.inr ⟨t, by rw [hdef, if_pos rfl]; simp⟩), rfl⟩
  | advanceScan request input _ _ _ _ _ =>
    refine .replaceHeld hf hl (fun k hne => hne) rfl (fun q' h => ?_) (fun q' h => h)
      (fun _ => ⟨request.next, .inl rfl, rfl⟩)
    rcases h with heq | h
    · obtain rfl : request.next = q' := by simpa using heq
      exact .inr ⟨rfl, .inl rfl⟩
    · exact .inl h
  | finishScanRun request input record hk _ _ _ hrec | finishScanUpToDate request input record hk _ _ _ _ hrec =>
    refine .wakeScanRecord hf hl (fun q hq => ?_) hrec rfl ?_ ?_ (fun k' hk' => ?_) (fun _ => rfl)
    · obtain rfl : request = q := by simpa using hq
      rfl
    · simp [wakeScanRecord, modifyRule]
    · simp [wakeScanRecord, modifyRule, RuleInfo.isScanning]
    · simp [wakeScanRecord, modifyRule, hk']
  | popInput request rest _ | dropDummy request _ _ | popFinished request rest t _ _ =>
    exact .of_frame hf hl rfl (by simp) (fun _ => .inl rfl) (fun _ => rfl)
  | pauseInput request record hs hrec =>
    refine .of_frame hf hl rfl (by simp) (fun k' => ?_) (fun _ => rfl)
    by_cases hk : k' = request.inputRuleInfo
    · subst hk
      refine .inr ⟨by simp [hrec], ?_⟩
      rw [deferredScans_write, if_pos rfl, deferredScans_of_record hrec]
      rfl
    · exact .inl (by rw [modifyRule_ruleInfos_ne e _ hk])
  | recordAvailable request t ti _ _ _ =>
    exact .of_frame hf hl rfl (by simp)
      (fun k' => .inl (record_recordDependency e ti.forRuleInfo request k')) (fun _ => rfl)
  | recordPending request t ti t' _ _ _ _ =>
    exact .of_frame hf hl rfl (by simp)
      (fun k' => .inl (record_recordDependency e ti.forRuleInfo request k'))
      (deferredScans_modifyTask (fun _ => rfl))
  | decrement request t ti _ _ _ =>
    obtain ⟨ready, trapped, heq⟩ := decrement_frame e t
    rw [heq] at hf ⊢
    exact .of_frame hf hl rfl (by simp) (fun _ => .inl rfl) (deferredScans_modifyTask (fun _ => rfl))
  | popReady t rest ti _ _ =>
    exact .of_frame hf hl rfl (fun _ => Iff.rfl)
      (fun k' => .inl (record_setComputing e ti.forRuleInfo k')) (deferredScans_modifyTask (fun _ => rfl))
  | finishTask t rest ti db _ ht _ =>
    set e' := { { e with finishedTaskInfos := rest }.completeRule ti with db := db }.releaseTask t ti
      with he'
    have hrec : ∀ k, (e'.ruleInfos k).pendingScanRecord = (e.ruleInfos k).pendingScanRecord := by
      intro k
      by_cases hk : k = ti.forRuleInfo
      · subst hk; simp [he', releaseTask, completeRule, modifyRule, emit, RuleInfo.setComplete]
      · simp [he', releaseTask, completeRule, modifyRule, emit, hk]
    have hdef : ∀ k, (e'.ruleInfos k).deferredScans = (e.ruleInfos k).deferredScans := by
      intro k
      unfold RuleInfo.deferredScans
      rw [hrec]
    have htask : ∀ t', e'.deferredScans t' = if t' = t then [] else e.deferredScans t' := by
      intro t'
      split_ifs with heq
      · subst heq; simp [deferredScans, he', releaseTask]
      · simp [deferredScans, he', releaseTask, completeRule, modifyRule, emit, heq]
    have hold : e.deferredScans t = ti.deferredScanRequests := by simp [deferredScans, ht]
    refine .of_iff hf hl (fun k hne => hrec k ▸ hne) (fun q => ?_)
    rw [scanPending_iff, scanPending_iff]
    simp only [hdef]
    show q ∈ ti.deferredScanRequests.reverse ++ e.ruleInfosToScan ∨ _ ∨ _ ∨ _ ↔ _
    rw [mem_append, mem_reverse]
    constructor
    · rintro ((hmem | hmem) | hheld | hmem | ⟨t', hmem⟩)
      · exact .inr (.inr (.inr ⟨t, by rw [hold]; exact hmem⟩))
      · exact .inl hmem
      · exact .inr (.inl hheld)
      · exact .inr (.inr (.inl hmem))
      · rw [htask] at hmem
        split_ifs at hmem
        · exact absurd hmem (by simp)
        · exact .inr (.inr (.inr ⟨t', hmem⟩))
    · rintro (hmem | hheld | hmem | ⟨t', hmem⟩)
      · exact .inl (.inr hmem)
      · exact .inr (.inl hheld)
      · exact .inr (.inr (.inl hmem))
      · by_cases heq : t' = t
        · subst heq
          rw [hold] at hmem
          exact .inl (.inl hmem)
        · exact .inr (.inr (.inr ⟨t', by rw [htask, if_neg heq]; exact hmem⟩))
  | forceBuild k record hn _ hk hr =>
    rw [forceBuild_eq hn.1 hr] at hf ⊢
    refine .wakeScanRecord hf hl (fun q hq => absurd hq (by simp)) hr rfl ?_ ?_ (fun k' hk' => ?_)
      (fun _ => rfl)
    · simp [wakeScanRecord, modifyRule, emit]
    · simp [wakeScanRecord, modifyRule, emit, RuleInfo.isScanning]
    · simp [wakeScanRecord, modifyRule, emit, hk']
  | _ => exact .of_frame hf hl rfl (fun _ => Iff.rfl) (fun _ => .inl rfl) (fun _ => rfl)

/-! ## The root request -/

theorem Engine.InputPending.of_subset (hp : e.InputPending h k) (hq : ∀ r ∈ e.inputRequests, r ∈ e'.inputRequests)
    (hi : ∀ r, h.item = .inputRequest r → h'.item = .inputRequest r)
    (hr : ∀ record, (e.ruleInfos k).pendingScanRecord = some record →
      ∀ r ∈ record.pausedInputRequests, r ∈ e'.inputRequests ∨
        ∃ record', (e'.ruleInfos k).pendingScanRecord = some record' ∧ r ∈ record'.pausedInputRequests) :
    e'.InputPending h' k := by
  rcases hp with ⟨r, hmem, hk⟩ | ⟨r, hheld, hk⟩ | ⟨record, hrec, r, hmem, hk⟩
  · exact .inl ⟨r, hq r hmem, hk⟩
  · exact .inr (.inl ⟨r, hi r hheld, hk⟩)
  · rcases hr record hrec r hmem with hmem' | ⟨record', hrec', hmem'⟩
    · exact .inl ⟨r, hmem', hk⟩
    · exact .inr (.inr ⟨record', hrec', r, hmem', hk⟩)

theorem Engine.InputPending.congr (hp : e.InputPending h k) (hq : e'.inputRequests = e.inputRequests)
    (hi : ∀ r, h.item = .inputRequest r → h'.item = .inputRequest r)
    (hr : (e'.ruleInfos k).pendingScanRecord = (e.ruleInfos k).pendingScanRecord) :
    e'.InputPending h' k :=
  hp.of_subset (fun _ hr' => hq ▸ hr') hi (fun record hrec _ hmem => .inr ⟨record, hr.trans hrec, hmem⟩)

/-- Waking a record requeues what was paused. -/
theorem Engine.InputPending.wakeScanRecord (hp : e.InputPending h key)
    (hi : ∀ r, h.item = .inputRequest r → h'.item = .inputRequest r)
    (hrec : (e.ruleInfos k).pendingScanRecord = some record)
    (hq : e'.inputRequests = e.inputRequests ++ record.pausedInputRequests)
    (hne : ∀ k', k' ≠ k → e'.ruleInfos k' = e.ruleInfos k') : e'.InputPending h' key := by
  refine hp.of_subset (fun r hr => ?_) hi (fun record' hrec' r hmem => ?_)
  · rw [hq]; exact mem_append_left _ hr
  · by_cases hk : key = k
    · subst hk
      cases hrec.symm.trans hrec'
      exact .inl (by rw [hq]; exact mem_append_right _ hmem)
    · exact .inr ⟨record', by rw [hne key hk]; exact hrec', hmem⟩

/-- A move that disposes of the held request for a rule that was demanded. -/
theorem Engine.InputPending.dispose {request : TaskInputRequest}
    (hp : e.InputPending { item := .inputRequest request } key) (e' : Engine T)
    (hq : e'.inputRequests = e.inputRequests)
    (hr : (e'.ruleInfos key).pendingScanRecord = (e.ruleInfos key).pendingScanRecord) :
    e'.InputPending {} key ∨ key = request.inputRuleInfo := by
  rcases hp with ⟨r, hmem, hk⟩ | ⟨r, hheld, hk⟩ | ⟨record, hrec, r, hmem, hk⟩
  · exact .inl (.inl ⟨r, hq ▸ hmem, hk⟩)
  · obtain rfl : request = r := by simpa using hheld
    exact .inr hk.symm
  · exact .inl (.inr (.inr ⟨record, hr.trans hrec, r, hmem, hk⟩))

/-- **The root request stays pending until its rule is demanded.** -/
theorem Micro.rooted (hm : Micro c w (e, h) (e', h')) (hl : Linked e)
    (hr : e.InputPending h key ∨ (e.ruleInfos key).Done e.currentEpoch ∨
      (e.ruleInfos key).isInProgress = true) :
    e'.InputPending h' key ∨ (e'.ruleInfos key).Done e'.currentEpoch ∨
      (e'.ruleInfos key).isInProgress = true := by
  have hf := hm.ruleFrame hl
  have hstays : (e.ruleInfos key).Done e.currentEpoch ∨ (e.ruleInfos key).isInProgress = true →
      (e'.ruleInfos key).Done e'.currentEpoch ∨ (e'.ruleInfos key).isInProgress = true := by
    rintro (hd | hp)
    · exact .inl (hf.done_eq hd).2
    · exact (hf.inProgress hp).symm
  rcases hr with hp | hdemanded
  swap
  · exact .inr (hstays hdemanded)
  cases hm with
  | cleanRule k _ | scanNeedsToRun k _ _ | scanUpToDate k _ _ _ | markUpToDate k _ =>
    exact .inl (hp.congr rfl (fun _ hi => hi) (record_modifyRule (by rfl) key))
  | scanScheduled k hu _ _ _ =>
    refine .inl (hp.of_subset (fun _ hr => hr) (fun _ hi => hi) (fun record hrec r hmem => .inr ?_))
    have hk : key ≠ k := by
      rintro rfl
      rw [(hl.rule key).record_eq_none hu.2] at hrec
      exact absurd hrec (by simp)
    exact ⟨record, by simpa [modifyRule, hk] using hrec, hmem⟩
  | registerTask k _ _ =>
    exact .inl (hp.congr rfl (fun _ hi => hi) (record_modifyRule (e := e) (k := k) (f := fun r =>
      { r with
        state := .inProgressWaiting, pendingTaskInfo := some e.nextTask,
        result := { r.result with dependencies := [] } }) rfl key))
  | callRequest t ti call request _ _ _ =>
    exact .inl (hp.of_subset (fun r hr => mem_append_left _ hr) (fun _ hi => hi)
      (fun record hrec r hmem => .inr ⟨record, hrec, hmem⟩))
  | deferOnScan request input record _ _ _ hrec =>
    refine .inl (hp.of_subset (fun _ hr => hr) (by simp) (fun record' hrec' r hmem => .inr ?_))
    by_cases hk : key = input
    · subst hk
      cases hrec.symm.trans hrec'
      refine ⟨{ record with deferredScanRequests := record.deferredScanRequests ++ [request] }, ?_, hmem⟩
      rw [modifyRule_ruleInfos_self]
      rfl
    · exact ⟨record', by rw [modifyRule_ruleInfos_ne e _ hk]; exact hrec', hmem⟩
  | finishScanRun request input record _ _ _ _ hrec | finishScanUpToDate request input record _ _ _ _ _ hrec =>
    refine .inl (hp.wakeScanRecord (by simp) hrec rfl (fun k' hk' => ?_))
    simp [wakeScanRecord, modifyRule, hk']
  | popInput request rest hq =>
    rcases hp with ⟨r, hmem, hk⟩ | ⟨r, hheld, hk⟩ | hrec
    · rw [hq] at hmem
      rcases mem_cons.mp hmem with rfl | hmem
      · exact .inl (.inr (.inl ⟨r, rfl, hk⟩))
      · exact .inl (.inl ⟨r, hmem, hk⟩)
    · exact absurd hheld (by simp)
    · exact .inl (.inr (.inr hrec))
  | pauseInput request record hs hrec =>
    left
    rcases hp with ⟨r, hmem, hk⟩ | ⟨r, hheld, hk⟩ | ⟨record', hrec', r, hmem, hk⟩
    · exact .inl ⟨r, hmem, hk⟩
    · obtain rfl : request = r := by simpa using hheld
      subst hk
      refine .inr (.inr ⟨{ record with
        pausedInputRequests := record.pausedInputRequests ++ [request] }, ?_, request, by simp, rfl⟩)
      rw [modifyRule_ruleInfos_self]
      rfl
    · by_cases heq : key = request.inputRuleInfo
      · obtain rfl := Option.some.inj ((heq ▸ hrec : (e.ruleInfos key).pendingScanRecord = _).symm.trans
          hrec')
        refine .inr (.inr ⟨{ record with
          pausedInputRequests := record.pausedInputRequests ++ [request] }, ?_, r,
          mem_append_left _ hmem, hk⟩)
        rw [heq, modifyRule_ruleInfos_self]
        rfl
      · exact .inr (.inr ⟨record', by rw [modifyRule_ruleInfos_ne e _ heq]; exact hrec', r, hmem, hk⟩)
  | dropDummy request _ hstate =>
    rcases hp.dispose _ rfl rfl with hp' | rfl
    · exact .inl hp'
    · exact .inr hstate
  | recordAvailable request t ti _ _ hd =>
    rcases hp.dispose (e.recordDependency ti.forRuleInfo request) rfl
      (record_recordDependency e ti.forRuleInfo request key) with hp' | rfl
    · exact .inl hp'
    · exact .inr (hstays (.inl hd))
  | recordPending request t ti t' _ _ hprog _ =>
    rcases hp.dispose (e.recordDependency ti.forRuleInfo request) rfl
      (record_recordDependency e ti.forRuleInfo request key) with hp' | rfl
    · exact .inl hp'
    · exact .inr (hstays (.inr hprog))
  | popFinished request rest t _ _ => exact .inl (hp.congr rfl (by simp) rfl)
  | decrement request t ti _ _ _ =>
    obtain ⟨ready, trapped, heq⟩ := decrement_frame e t
    rw [heq]
    exact .inl (hp.congr rfl (by simp) rfl)
  | popReady t rest ti _ _ =>
    exact .inl (hp.congr rfl (fun _ hi => hi) (record_setComputing e ti.forRuleInfo key))
  | finishTask t rest ti db _ _ _ =>
    refine .inl (hp.of_subset (fun r hr => mem_append_left _ hr) (fun _ hi => hi)
      (fun record hrec r hmem => .inr ⟨record, ?_, hmem⟩))
    by_cases hk : key = ti.forRuleInfo
    · subst hk; simpa [releaseTask, completeRule, modifyRule, emit, RuleInfo.setComplete] using hrec
    · simpa [releaseTask, completeRule, modifyRule, emit, hk] using hrec
  | forceBuild k record hn _ _ hrec =>
    rw [forceBuild_eq hn.1 hrec]
    refine .inl (hp.wakeScanRecord (by simp) hrec rfl (fun k' hk' => ?_))
    simp [wakeScanRecord, modifyRule, emit, hk']
  | supplyPriorValue t ti request _ _ _ _ => exact .inl (hp.congr rfl (fun _ hi => hi) rfl)
  | _ => exact .inl (hp.congr rfl (by first | exact fun _ hi => hi | simp) rfl)

/-! ## The invariant -/

theorem not_untouched_of_scanning {r : RuleInfo} {epoch : Epoch} (h : r.isScanning = true) :
    ¬ r.Untouched epoch := fun hu => absurd hu.2 (by simp [h])

theorem Micro.waits (hm : Micro c w (e, h) (e', h')) (hl : Linked e) (hw : Waits key e h) : Waits key e' h' := by
  have hf := hm.ruleFrame hl
  have ht := hm.scanTransport hl
  -- the result of a scanning rule with a pending request does not change
  have hsame : ∀ q₀ k, e.ScanPending h q₀ → q₀.ruleInfo = k → (e'.ruleInfos k).isScanning = true →
      (e.ruleInfos k).isScanning = true ∧ (e'.ruleInfos k).result = (e.ruleInfos k).result := by
    rintro q₀ k hq₀ rfl hs
    rcases hf.scanning hs with ⟨hs₀, hres, -⟩ | ⟨hu, -⟩
    · exact ⟨hs₀, hres⟩
    · exact absurd hu (hw.touched q₀ hq₀)
  refine ⟨fun q hq => ?_, fun q x hq hs hx => ?_, fun k hs hrec => ?_, hm.rooted hl hw.rooted⟩
  · rcases ht.back q hq with ⟨q₀, hq₀, hrule, -⟩ | ⟨-, hs, -⟩
    · exact hf.touched (hrule ▸ hw.touched q₀ hq₀)
    · exact not_untouched_of_scanning hs
  · rcases ht.back q hq with ⟨q₀, hq₀, hrule, hcase⟩ | ⟨-, -, hnone⟩
    · obtain ⟨hs₀, hres⟩ := hsame q₀ q.ruleInfo hq₀ hrule hs
      rcases hcase with hnone | rfl | ⟨d, hd, hdx⟩
      · rw [hnone] at hx
        exact absurd hx (by simp)
      · rw [hres]
        exact hw.placed q x hq₀ hs₀ hx
      · rw [hdx] at hx
        exact ⟨d, by rw [hres]; exact hd, Option.some.inj hx⟩
    · rw [hnone] at hx
      exact absurd hx (by simp)
  · rcases hf.scanning hs with ⟨hs₀, -, hiff⟩ | ⟨hu, -⟩
    · obtain ⟨q, hq, rfl⟩ := hw.live k hs₀ (hiff.mp hrec)
      exact ht.forth q hq hs
    · exact ht.fresh k hu hs

/-- A call from another thread leaves states, records, queues and waiting requests alone. -/
theorem ThreadCall.frame (hc : ThreadCall c e e') :
    e'.currentEpoch = e.currentEpoch ∧ e'.inputRequests = e.inputRequests ∧
    e'.ruleInfosToScan = e.ruleInfosToScan ∧
    (∀ k, e'.ruleInfos k = e.ruleInfos k ∨ ((e.ruleInfos k).isInProgressComputing = true ∧
      (e'.ruleInfos k).state = (e.ruleInfos k).state ∧
      (e'.ruleInfos k).pendingScanRecord = (e.ruleInfos k).pendingScanRecord)) ∧
    ∀ t, e'.deferredScans t = e.deferredScans t := by
  cases hc with
  | taskIsComplete t ti value forceChange ht hcomp _ =>
    rw [taskIsComplete_eq value forceChange ht hcomp]
    refine ⟨rfl, rfl, rfl, fun k => ?_, fun _ => rfl⟩
    by_cases hk : k = ti.forRuleInfo
    · subst hk
      exact .inr ⟨hcomp, by simp [modifyRule], by simp [modifyRule]⟩
    · exact .inl (by simp [modifyRule, hk])
  | discoveredDependency t ti key ht hcomp _ =>
    rw [taskDiscoveredDependency_eq key ht hcomp]
    exact ⟨rfl, rfl, rfl, fun _ => .inl rfl, deferredScans_modifyTask (fun _ => rfl)⟩

theorem ThreadCall.waits (hc : ThreadCall c e e') (hw : Waits key e {}) : Waits key e' {} := by
  obtain ⟨he, hin, hscan, hr, ht⟩ := hc.frame
  have hstate : ∀ k, (e'.ruleInfos k).state = (e.ruleInfos k).state := fun k => by
    rcases hr k with h | h
    · rw [h]
    · exact h.2.1
  have hrec : ∀ k, (e'.ruleInfos k).pendingScanRecord = (e.ruleInfos k).pendingScanRecord := fun k => by
    rcases hr k with h | h
    · rw [h]
    · exact h.2.2
  have hscanning : ∀ k, (e'.ruleInfos k).isScanning = (e.ruleInfos k).isScanning := fun k => by
    simp only [RuleInfo.isScanning, hstate]
  have heq : ∀ k, (e.ruleInfos k).isInProgressComputing = false → e'.ruleInfos k = e.ruleInfos k := by
    intro k hk
    rcases hr k with h | h
    · exact h
    · rw [hk] at h
      exact absurd h.1 (by simp)
  have hiff : ∀ q, e'.ScanPending {} q ↔ e.ScanPending {} q := by
    intro q
    rw [scanPending_iff, scanPending_iff, hscan]
    simp only [RuleInfo.deferredScans, hrec, ht]
  refine ⟨fun q hq => ?_, fun q x hq hs hx => ?_, fun k hs hne => ?_, ?_⟩
  · have hold := hw.touched q ((hiff q).mp hq)
    intro hu
    by_cases hcomp : (e.ruleInfos q.ruleInfo).isInProgressComputing = true
    · have hp : (e'.ruleInfos q.ruleInfo).isInProgress = true := by
        simp only [RuleInfo.isInProgressComputing, decide_eq_true_eq] at hcomp
        simp [RuleInfo.isInProgress, RuleInfo.isInProgressComputing, hstate, hcomp]
      rw [isInProgress_of_untouched hu] at hp
      exact absurd hp (by simp)
    · rw [heq _ (by simpa using hcomp), he] at hu
      exact hold hu
  · rw [hscanning] at hs
    rw [heq _ (not_computing_of_not_inProgress (isInProgress_of_scanning hs))]
    exact hw.placed q x ((hiff q).mp hq) hs hx
  · rw [hscanning] at hs
    rw [hrec] at hne
    obtain ⟨q, hq, hk⟩ := hw.live k hs hne
    exact ⟨q, (hiff q).mpr hq, hk⟩
  · rcases hw.rooted with hp | hd | hp
    · exact .inl (hp.congr hin (fun _ h => h) (hrec key))
    · exact .inr (.inl (hc.done_eq hd).2)
    · refine .inr (.inr ?_)
      simpa [RuleInfo.isInProgress, RuleInfo.isInProgressWaiting, RuleInfo.isInProgressComputing, hstate]
        using hp

/-- At the start of a build the root request is all there is. -/
theorem Quiet.waits_startBuild (hq : Quiet e) (key : KeyType) :
    Waits key (Machine.startBuild e key) {} := by
  have hno : ∀ q, ¬ (Machine.startBuild e key).ScanPending {} q := by
    intro q
    rw [scanPending_iff]
    rintro (h | h | ⟨k, h⟩ | ⟨t, h⟩)
    · simp [Machine.startBuild, hq.ruleInfosToScan] at h
    · simp at h
    · simp [Machine.startBuild, RuleInfo.deferredScans, hq.records k] at h
    · simp [Machine.startBuild, deferredScans, hq.tasks t] at h
  refine ⟨fun q h => absurd h (hno q), fun q x h => absurd h (hno q), fun k _ hrec => ?_, ?_⟩
  · exact absurd (hq.records k) hrec
  · exact .inl (.inl ⟨Machine.rootRequest key, by simp [Machine.startBuild], rfl⟩)

end Builra
