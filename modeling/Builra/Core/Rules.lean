import Builra.Core.Refine

namespace Builra

open RuleInfo

/-!
# `Core.Rules` — the life of a rule within a build

`RuleMove` lists what a move can do to the entry of one rule, with the state the rule must be in for it. A
rule that is complete in the current epoch is never written to again (`RuleFrame.done_eq`).
-/

variable {T W : Type} {c : Client T W} {w : W}

open Engine

/-- **What a move can do to the entry of rule `k`.** -/
inductive RuleMove (c : Client T W) (w : W) (e : Engine T) (k : KeyType) : RuleInfo → Prop where
  | clean : (e.ruleInfos k).Untouched e.currentEpoch →
      RuleMove c w e k
        { e.ruleInfos k with
          result :=
            { (e.ruleInfos k).result with
              dependencies := cleanSingleUseDependencies (e.ruleInfos k).result.dependencies }
          wasForced := false }
  | scanNeedsToRun : (e.ruleInfos k).Untouched e.currentEpoch → ¬ e.Reusable c w k →
      RuleMove c w e k { e.ruleInfos k with state := .needsToRun }
  | scanUpToDate : (e.ruleInfos k).Untouched e.currentEpoch → e.Reusable c w k →
      (e.ruleInfos k).result.dependencies = [] →
      RuleMove c w e k { e.ruleInfos k with state := .doesNotNeedToRun }
  | scanScheduled : (e.ruleInfos k).Untouched e.currentEpoch → e.Reusable c w k →
      (e.ruleInfos k).result.dependencies ≠ [] →
      (∀ d ∈ (e.ruleInfos k).result.dependencies, d.singleUse = false) →
      RuleMove c w e k { e.ruleInfos k with state := .isScanning, pendingScanRecord := some {} }
  | addToRecord (record : RuleScanRecord) : (e.ruleInfos k).isScanning = true →
      (e.ruleInfos k).pendingScanRecord ≠ none →
      RuleMove c w e k { e.ruleInfos k with pendingScanRecord := some record }
  | finishScan (newState : StateKind) : (e.ruleInfos k).isScanning = true →
      (newState = .needsToRun ∨ newState = .doesNotNeedToRun) →
      RuleMove c w e k { e.ruleInfos k with pendingScanRecord := none, state := newState }
  | force : (e.ruleInfos k).isScanning = true → e.NoWork →
      RuleMove c w e k
        { e.ruleInfos k with pendingScanRecord := none, state := .needsToRun, wasForced := true }
  | markUpToDate : (e.ruleInfos k).state = .doesNotNeedToRun →
      RuleMove c w e k ((e.ruleInfos k).setComplete e.currentEpoch)
  | register : (e.ruleInfos k).state = .needsToRun →
      RuleMove c w e k
        { e.ruleInfos k with
          state := .inProgressWaiting
          pendingTaskInfo := some e.nextTask
          result := { (e.ruleInfos k).result with dependencies := [] } }
  | recordDependency (d : Dependency) : (e.ruleInfos k).isInProgress = true →
      RuleMove c w e k
        { e.ruleInfos k with
          result :=
            { (e.ruleInfos k).result with dependencies := (e.ruleInfos k).result.dependencies ++ [d] } }
  | compute : (e.ruleInfos k).isInProgress = true →
      RuleMove c w e k { e.ruleInfos k with state := .inProgressComputing }
  | store (value : ValueType) (forceChange : Bool) : (e.ruleInfos k).isInProgressComputing = true →
      RuleMove c w e k
        { e.ruleInfos k with
          result := storeValue (c.signature k) e.currentEpoch value forceChange (e.ruleInfos k).result }
  | complete (discovered : List Dependency) : (e.ruleInfos k).isInProgress = true →
      RuleMove c w e k
        { e.ruleInfos k with
          state := .complete
          pendingTaskInfo := none
          result :=
            { (e.ruleInfos k).result with
              builtAt := e.currentEpoch
              dependencies := (e.ruleInfos k).result.dependencies ++ discovered } }

/-- A move writes to at most one rule: `k`, as `RuleMove` says. -/
def RuleFrame (c : Client T W) (w : W) (e e' : Engine T) : Prop :=
  e'.currentEpoch = e.currentEpoch ∧ (∀ k, k ∈ e.ruleKeys → k ∈ e'.ruleKeys) ∧
    ∀ k, e'.ruleInfos k = e.ruleInfos k ∨ RuleMove c w e k (e'.ruleInfos k)

variable {e e' : Engine T} {k : KeyType}

theorem RuleFrame.of_eq (he : e'.currentEpoch = e.currentEpoch) (hk : e'.ruleKeys = e.ruleKeys)
    (hr : e'.ruleInfos = e.ruleInfos) : RuleFrame c w e e' :=
  ⟨he, fun k h => hk ▸ h, fun k => .inl (by rw [hr])⟩

theorem RuleFrame.update {r : RuleInfo} (hm : RuleMove c w e k r) (he : e'.currentEpoch = e.currentEpoch)
    (hk : e'.ruleKeys = e.ruleKeys.insert k) (hr : e'.ruleInfos = Function.update e.ruleInfos k r) :
    RuleFrame c w e e' := by
  refine ⟨he, fun k' h => ?_, fun k' => ?_⟩
  · rw [hk]
    simp [h]
  · rw [hr]
    by_cases heq : k' = k
    · subst heq
      rw [Function.update_self]
      exact .inr hm
    · exact .inl (Function.update_of_ne heq _ _)

/-- Counting down touches the task and the ready queue only. -/
theorem decrement_frame (e : Engine T) (t : TaskID) :
    ∃ ready trapped, e.decrementTaskWaitCount t =
      { e.modifyTask t (fun ti => { ti with waitCount := ti.waitCount - 1 }) with
        readyTaskInfos := ready, trapped := trapped } := by
  unfold decrementTaskWaitCount scheduleIfReady
  split
  · exact ⟨_, _, rfl⟩
  · split_ifs
    · exact ⟨_, _, rfl⟩
    · exact ⟨_, _, rfl⟩

/-- **Every move writes to one rule at most, the way its state allows.** -/
theorem Micro.ruleFrame {h h' : Held} (hm : Micro c w (e, h) (e', h')) (hl : Linked e) : RuleFrame c w e e' := by
  cases hm with
  | cleanRule k hu => exact .update (.clean hu) rfl rfl rfl
  | scanNeedsToRun k hu hr => exact .update (.scanNeedsToRun hu hr) rfl rfl rfl
  | scanUpToDate k hu hr hd => exact .update (.scanUpToDate hu hr hd) rfl rfl rfl
  | scanScheduled k hu hr hd hs => exact .update (.scanScheduled hu hr hd hs) rfl rfl rfl
  | markUpToDate k hd => exact .update (.markUpToDate hd) rfl rfl rfl
  | registerTask k hk _ => exact .update (.register hk) rfl rfl rfl
  | deferOnScan request input record _ _ hs hrec | pauseInput request record hs hrec =>
    exact .update (.addToRecord _ hs (by simp [hrec])) rfl rfl rfl
  | finishScanRun request input record hk _ _ _ _ =>
    exact .update (.finishScan .needsToRun hk (.inl rfl)) rfl rfl rfl
  | finishScanUpToDate request input record hk _ _ _ _ _ =>
    exact .update (.finishScan .doesNotNeedToRun hk (.inr rfl)) rfl rfl rfl
  | recordAvailable request t ti _ ht _ | recordPending request t ti t' _ ht _ _ =>
    exact .update (.recordDependency
      { keyID := request.inputRuleInfo, orderOnly := request.orderOnly, singleUse := request.singleUse }
      (hl.taskRule t ti ht).1) rfl rfl rfl
  | decrement request t ti _ _ _ =>
    obtain ⟨ready, trapped, heq⟩ := decrement_frame e t
    rw [heq]
    exact .of_eq rfl rfl rfl
  | popReady t rest ti _ ht => exact .update (.compute (hl.taskRule t ti ht).1) rfl rfl rfl
  | finishTask t rest ti db _ ht _ =>
    refine .update (.complete ti.discoveredDependencies (hl.taskRule t ti ht).1) rfl ?_ ?_
    · simp [releaseTask, completeRule, Engine.modifyRule, emit]
    · simp [releaseTask, completeRule, Engine.modifyRule, emit, setComplete]
  | forceBuild k record hn _ hk hr =>
    rw [forceBuild_eq hn.1 hr]
    refine .update (.force hk hn) rfl ?_ ?_
    · simp [wakeScanRecord, Engine.modifyRule, emit]
    · simp [wakeScanRecord, Engine.modifyRule, emit]
  | _ => exact .of_eq rfl rfl rfl

/-- A move never writes to a rule that is complete in the current epoch. -/
theorem RuleMove.not_done {r : RuleInfo} (hm : RuleMove c w e k r) :
    ¬ (e.ruleInfos k).Done e.currentEpoch := by
  intro hd
  obtain ⟨hs, hb⟩ : (e.ruleInfos k).state = .complete ∧ _ := by
    simpa [RuleInfo.Done, isComplete] using hd
  have hscanned : (e.ruleInfos k).isScanned e.currentEpoch = true := by
    simp only [isScanned, hs, if_true]
    exact hd
  cases hm <;>
    simp_all [RuleInfo.Untouched, isScanning, isInProgress,
      isInProgressWaiting, isInProgressComputing]

section

variable (hf : RuleFrame c w e e')
include hf

/-- **A complete rule stays as it is.** -/
theorem RuleFrame.done_eq (hd : (e.ruleInfos k).Done e.currentEpoch) :
    e'.ruleInfos k = e.ruleInfos k ∧ (e'.ruleInfos k).Done e'.currentEpoch := by
  obtain ⟨he, -, hr⟩ := hf
  rcases hr k with heq | hmove
  · rw [heq, he]; exact ⟨rfl, hd⟩
  · exact absurd hd hmove.not_done

/-- Within a build a rule that was looked at is never looked at afresh. -/
theorem RuleFrame.touched (hk : ¬ (e.ruleInfos k).Untouched e.currentEpoch) :
    ¬ (e'.ruleInfos k).Untouched e'.currentEpoch := by
  obtain ⟨he, -, hr⟩ := hf
  rcases hr k with heq | hmove
  · rw [heq, he]; exact hk
  · rw [he]
    generalize hr' : e'.ruleInfos k = r' at hmove
    cases hmove with
    | clean hu | scanNeedsToRun hu _ | scanUpToDate hu _ _ | scanScheduled hu _ _ _ => exact absurd hu hk
    | addToRecord record hs _ => exact fun hu => absurd hu.2 (by simpa [isScanning] using hs)
    | finishScan newState _ hn =>
      rcases hn with rfl | rfl <;>
        exact fun hu => absurd hu.1 (by simp [isScanned, StateKind.pastScanning])
    | force _ _ | register _ | compute _ =>
      exact fun hu => absurd hu.1 (by simp [isScanned, StateKind.pastScanning])
    | markUpToDate _ =>
      exact fun hu => absurd hu.1 (by simp [isScanned, setComplete, isComplete])
    | recordDependency d hp =>
      exact fun hu => absurd (hp.symm.trans (isInProgress_of_untouched hu)) (by simp)
    | store value forceChange hp =>
      exact fun hu => absurd (isInProgress_of_untouched hu) (by
        simp only [isInProgressComputing, decide_eq_true_eq] at hp
        simp [isInProgress, isInProgressComputing, hp])
    | complete discovered _ =>
      exact fun hu => absurd hu.1 (by simp [isScanned, isComplete])

/-- A rule in progress stays in progress until it is complete. -/
theorem RuleFrame.inProgress (hk : (e.ruleInfos k).isInProgress = true) :
    (e'.ruleInfos k).isInProgress = true ∨ (e'.ruleInfos k).Done e'.currentEpoch := by
  obtain ⟨he, -, hr⟩ := hf
  rcases hr k with heq | hmove
  · rw [heq]; exact .inl hk
  · rw [he]
    generalize hr' : e'.ruleInfos k = r' at hmove
    have hstate : (e.ruleInfos k).state = .inProgressWaiting ∨
        (e.ruleInfos k).state = .inProgressComputing := by
      simpa [isInProgress, isInProgressWaiting, isInProgressComputing] using hk
    cases hmove with
    | clean hu | scanNeedsToRun hu _ | scanUpToDate hu _ _ | scanScheduled hu _ _ _ =>
      rw [isInProgress_of_untouched hu] at hk; exact absurd hk (by simp)
    | addToRecord record hs _ | finishScan newState hs _ | force hs _ =>
      rw [isInProgress_of_scanning hs] at hk; exact absurd hk (by simp)
    | markUpToDate hd => rw [hd] at hstate; simp at hstate
    | register hn => rw [hn] at hstate; simp at hstate
    | recordDependency d _ | store value forceChange _ => exact .inl hk
    | compute _ => exact .inl (by simp [isInProgress, isInProgressComputing])
    | complete discovered _ => exact .inr (by simp [RuleInfo.Done, isComplete])

/-- A scanning rule was scanning before, with the same result, or it was looked at just now. -/
theorem RuleFrame.scanning (hk : (e'.ruleInfos k).isScanning = true) :
    ((e.ruleInfos k).isScanning = true ∧ (e'.ruleInfos k).result = (e.ruleInfos k).result ∧
      ((e'.ruleInfos k).pendingScanRecord ≠ none ↔ (e.ruleInfos k).pendingScanRecord ≠ none)) ∨
    ((e.ruleInfos k).Untouched e.currentEpoch ∧ e.Reusable c w k ∧
      (∀ d ∈ (e.ruleInfos k).result.dependencies, d.singleUse = false) ∧
      (e'.ruleInfos k).result = (e.ruleInfos k).result ∧ (e'.ruleInfos k).pendingScanRecord ≠ none) := by
  rcases hf.2.2 k with heq | hmove
  · rw [heq] at hk ⊢
    exact .inl ⟨hk, rfl, Iff.rfl⟩
  · generalize hr' : e'.ruleInfos k = r' at hmove hk
    have hprog : (e.ruleInfos k).isInProgress = true → (e.ruleInfos k).isScanning = true → False := by
      intro hp hs
      rw [not_isScanning_of_isInProgress hp] at hs
      exact absurd hs (by simp)
    cases hmove with
    | clean hu => exact absurd hk (by rw [isScanning]; simpa [isScanning] using hu.2)
    | scanScheduled hu hr _ hs => exact .inr ⟨hu, hr, hs, rfl, by simp⟩
    | addToRecord record hs hrec => exact .inl ⟨hs, rfl, by simp [hrec]⟩
    | finishScan newState _ hn => rcases hn with rfl | rfl <;> simp [isScanning] at hk
    | recordDependency d hp => exact (hprog hp hk).elim
    | store value forceChange hp =>
      exact (hprog (by simp [isInProgress, hp]) hk).elim
    | _ => simp [isScanning, setComplete] at hk

end

theorem ThreadCall.done_eq (hc : ThreadCall c e e') (hd : (e.ruleInfos k).Done e.currentEpoch) :
    e'.ruleInfos k = e.ruleInfos k ∧ (e'.ruleInfos k).Done e'.currentEpoch := by
  cases hc with
  | taskIsComplete t ti value forceChange ht hcomp _ =>
    rw [taskIsComplete_eq value forceChange ht hcomp]
    have hne : k ≠ ti.forRuleInfo := by
      rintro rfl
      simp only [isInProgressComputing, decide_eq_true_eq] at hcomp
      simp [RuleInfo.Done, isComplete, hcomp] at hd
    simpa [Engine.modifyRule, hne] using hd
  | discoveredDependency t ti key ht hcomp _ =>
    rw [taskDiscoveredDependency_eq key ht hcomp]
    exact ⟨rfl, hd⟩

end Builra
