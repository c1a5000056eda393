import Builra.Core.Accounting
import Builra.Core.Waits
import Builra.Lib.Acyclic

namespace Builra

open Machine RuleInfo List

/-!
# `Core.Success` — what it means that `executeTasks` returns true

The loop stops when no queue has work and no task is registered. Rules that are only being scanned have no
task: if their recorded dependencies form a cycle they wait for each other, and the loop stops with the key
unbuilt (`executeTasks_leaves_scanning`). Without such a cycle at the start of the builds, a build that
succeeds has built its key (`build_success`).
-/

variable {T W : Type} {c : Client T W} {w : W}

open Engine

/-- What a successful `executeTasks(key)` promises, and `build` asserts. -/
structure Engine.Built (e : Engine T) (key : KeyType) : Prop where
  complete : (e.ruleInfos key).isComplete e.currentEpoch = true
  tasks : ∀ t, e.taskInfos t = none
  scanning : ∀ k, (e.ruleInfos k).isScanning = false

/-- The stored result of `k` may be reused in some external state, and it lists `x` as a dependency that is
    not single-use: scanning `k` may wait for `x`. -/
def Engine.RecordedDependency (c : Client T W) (e : Engine T) (k x : KeyType) : Prop :=
  (∃ w, e.Reusable c w k) ∧
    ∃ d ∈ (e.ruleInfos k).result.dependencies, d.singleUse = false ∧ d.keyID = x

/-- The recorded dependencies of the rules that may be scanned have no cycle. -/
def Engine.RecordsAcyclic (c : Client T W) (e : Engine T) : Prop :=
  Acyclic.NoCycle (e.RecordedDependency c)

/-- Every build starts with recorded dependencies that have no cycle. -/
def Machine.StartsAcyclic (c : Client T W) (m : Machine T) : Action W → Prop
  | .build _ => m.engine.RecordsAcyclic c
  | _ => True

/-- `r` is what is left of the result `r₀` once single-use dependencies were dropped, or not yet. -/
structure Result.SameRecord (r r₀ : Result) : Prop where
  value : r.value = r₀.value
  signature : r.signature = r₀.signature
  builtAt : r.builtAt = r₀.builtAt
  dependencies : ∀ d, d ∈ r.dependencies ∧ d.singleUse = false ↔ d ∈ r₀.dependencies ∧ d.singleUse = false

/-- The rules that are being scanned follow the records the build started with. -/
structure ScansRecorded (c : Client T W) (e₀ e : Engine T) : Prop where
  untouched : ∀ k, (e.ruleInfos k).Untouched e.currentEpoch →
    (e.ruleInfos k).result.SameRecord (e₀.ruleInfos k).result
  record : ∀ k, (e.ruleInfos k).isScanning = true → (e.ruleInfos k).pendingScanRecord ≠ none
  edges : ∀ k x, (e.ruleInfos k).isScanning = true →
    (∃ d ∈ (e.ruleInfos k).result.dependencies, d.keyID = x) → e₀.RecordedDependency c k x

theorem Result.SameRecord.clean {r r₀ : Result} (h : r.SameRecord r₀) :
    ({ r with dependencies := cleanSingleUseDependencies r.dependencies } : Result).SameRecord r₀ := by
  refine ⟨h.value, h.signature, h.builtAt, fun d => ?_⟩
  rw [← h.dependencies d]
  simp only [cleanSingleUseDependencies, mem_filter, Bool.not_eq_true']
  tauto

variable {e e' e₀ : Engine T}

/-- An untouched rule was untouched before, and only its single-use dependencies may be gone. -/
theorem RuleFrame.untouched (hf : RuleFrame c w e e') {k : KeyType} (hu : (e'.ruleInfos k).Untouched e'.currentEpoch) :
    (e.ruleInfos k).Untouched e.currentEpoch ∧
      ∀ r₀, (e.ruleInfos k).result.SameRecord r₀ → (e'.ruleInfos k).result.SameRecord r₀ := by
  have hold : (e.ruleInfos k).Untouched e.currentEpoch := by
    by_contra hne
    exact hf.touched hne hu
  refine ⟨hold, fun r₀ hr₀ => ?_⟩
  rcases hf.2.2 k with heq | hmove
  · rw [heq]; exact hr₀
  · generalize hr' : e'.ruleInfos k = r' at hmove hu
    have hp := isInProgress_of_untouched hold
    cases hmove with
    | clean _ => exact hr₀.clean
    | scanNeedsToRun _ _ | scanUpToDate _ _ _ | scanScheduled _ _ _ _ | addToRecord record hs _
    | finishScan newState _ _ | force _ _ | compute hprog => exact hr₀
    | markUpToDate hd =>
      exact absurd hold.1 (by simp [isScanned, StateKind.pastScanning, hd])
    | register hd => exact absurd hold.1 (by simp [isScanned, StateKind.pastScanning, hd])
    | recordDependency d hprog | complete discovered hprog => rw [hp] at hprog; exact absurd hprog (by simp)
    | store value forceChange hprog =>
      rw [not_computing_of_not_inProgress hp] at hprog; exact absurd hprog (by simp)

theorem Micro.scansRecorded {h h' : Held} (hm : Micro c w (e, h) (e', h')) (hl : Linked e) (hs : ScansRecorded c e₀ e) :
    ScansRecorded c e₀ e' := by
  have hf := hm.ruleFrame hl
  refine ⟨fun k hu => ?_, fun k hk => ?_, fun k x hk hx => ?_⟩
  · obtain ⟨hold, hsame⟩ := hf.untouched hu
    exact hsame _ (hs.untouched k hold)
  · rcases hf.scanning hk with ⟨hs₀, -, hiff⟩ | ⟨-, -, -, -, hrec⟩
    · exact hiff.mpr (hs.record k hs₀)
    · exact hrec
  · rcases hf.scanning hk with ⟨hs₀, hres, -⟩ | ⟨hu, hr, hsingle, hres, -⟩
    · rw [hres] at hx
      exact hs.edges k x hs₀ hx
    · -- the scan starts here, from the record of the start of the build
      obtain ⟨d, hd, hdx⟩ := hx
      rw [hres] at hd
      have hsame := hs.untouched k hu
      obtain ⟨hd₀, hsu⟩ := (hsame.dependencies d).mp ⟨hd, hsingle d hd⟩
      refine ⟨⟨w, ?_, ?_, ?_⟩, d, hd₀, hsu, hdx⟩
      · rw [← hsame.builtAt]; exact hr.1
      · rw [← hsame.signature]; exact hr.2.1
      · rw [← hsame.value]; exact hr.2.2

theorem ThreadCall.scansRecorded (hc : ThreadCall c e e') (hs : ScansRecorded c e₀ e) : ScansRecorded c e₀ e' := by
  obtain ⟨he, -, -, hr, -⟩ := hc.frame
  have hscan : ∀ k, (e'.ruleInfos k).isScanning = true →
      e'.ruleInfos k = e.ruleInfos k := by
    intro k hk
    rcases hr k with h | ⟨hcomp, hst, -⟩
    · exact h
    · rw [isScanning, hst] at hk
      rw [not_computing_of_not_inProgress (isInProgress_of_scanning hk)] at hcomp
      exact absurd hcomp (by simp)
  refine ⟨fun k hu => ?_, fun k hk => ?_, fun k x hk hx => ?_⟩
  · rcases hr k with h | ⟨hcomp, hst, -⟩
    · rw [h] at hu ⊢
      rw [he] at hu
      exact hs.untouched k hu
    · have hp := isInProgress_of_untouched hu
      simp only [isInProgressComputing, decide_eq_true_eq] at hcomp
      simp [isInProgress, isInProgressComputing, hst, hcomp] at hp
  · have heq := hscan k hk
    rw [heq] at hk ⊢
    exact hs.record k hk
  · have heq := hscan k hk
    rw [heq] at hk hx
    exact hs.edges k x hk hx

/-- **Without work and without tasks nothing is scanning**, if the recorded dependencies have no cycle:
    a scanning rule would wait for another one. -/
theorem not_scanning_of_noWork {key : KeyType} (hs : Sound e {}) (hw : Waits key e {}) (hr : ScansRecorded c e₀ e)
    (ha : e₀.RecordsAcyclic c) (hn : e.NoWork) (ht : ∀ t, e.taskInfos t = none) (k : KeyType) :
    (e.ruleInfos k).isScanning = false := by
  by_contra hk
  set s : Set KeyType := { k | (e.ruleInfos k).isScanning = true } with hset
  have hfin : s.Finite := by
    refine (finite_toSet e.ruleKeys).subset (fun k' hk' => ?_)
    by_contra hmem
    have hinc := (hs.linked.keys k' hmem).1
    simp [hset, isScanning, hinc] at hk'
  obtain ⟨k₁, hk₁, hlast⟩ := ha.exists_last hfin ⟨k, by simpa [hset] using hk⟩
  -- the scan request of the last one sits in the record of another
  obtain ⟨q, hq, rfl⟩ := hw.live k₁ hk₁ (hr.record k₁ hk₁)
  rcases id hq with hmem | hheld | ⟨x, record, hrec, hmem⟩ | ⟨t, ti, hti, -⟩
  · rw [hn.1] at hmem
    exact absurd hmem (by simp)
  · exact absurd hheld (by simp)
  · have hx : (e.ruleInfos x).isScanning = true := (hs.linked.rule x).scanning (by simp [hrec])
    have hin := (hs.linked.rule x).deferred record hrec q hmem
    obtain ⟨d, hd, hdx⟩ := hw.placed q x hq hk₁ hin
    exact hlast x hx (hr.edges _ x hk₁ ⟨d, mem_of_getElem? hd, hdx⟩)
  · rw [ht t] at hti
    exact absurd hti (by simp)

/-- A build that succeeds has built its key. -/
theorem built_of_noWork {key : KeyType} (hs : Sound e {}) (hw : Waits key e {}) (hn : e.NoWork)
    (ht : ∀ t, e.taskInfos t = none) (hscan : ∀ k, (e.ruleInfos k).isScanning = false) :
    (e.ruleInfos key).Done e.currentEpoch := by
  rcases hw.rooted with (⟨r, hmem, -⟩ | ⟨r, hheld, -⟩ | ⟨record, hrec, -⟩) | hd | hp
  · rw [hn.2.1] at hmem
    exact absurd hmem (by simp)
  · exact absurd hheld (by simp)
  · have hk := (hs.linked.rule key).scanning (by simp [hrec])
    rw [hscan key] at hk
    exact absurd hk (by simp)
  · exact hd
  · obtain ⟨t, ti, -, hti, -⟩ := hs.linked.ruleTask key hp
    rw [ht t] at hti
    exact absurd hti (by simp)

/-! ## Every run -/

/-- At the start of a build the records are the ones it starts with. -/
theorem scansRecorded_startBuild (hscan : ∀ k, (e.ruleInfos k).isScanning = false) (key : KeyType) :
    ScansRecorded c e (Machine.startBuild e key) := by
  have hno : ∀ k, (e.ruleInfos k).isScanning ≠ true := fun k => by rw [hscan k]; simp
  exact ⟨fun _ _ => ⟨rfl, rfl, rfl, fun _ => Iff.rfl⟩, fun k hk => absurd hk (hno k),
    fun k _ hk => absurd hk (hno k)⟩

/-- Cancellation resets every rule that was being scanned. -/
theorem not_scanning_cancelTasks (e : Engine T) (k : KeyType) :
    (e.cancelTasks.ruleInfos k).isScanning = false := by
  simp only [Engine.cancelTasks]
  split_ifs with htask hscan hscan
  · rfl
  · simpa using hscan
  · rfl
  · simpa using hscan

/-- Inside the loop: no scan is lost, and the scans follow records without a cycle. -/
def ScansAcyclic (c : Client T W) (key : KeyType) (e : Engine T) (h : Held) : Prop :=
  Waits key e h ∧ ∃ e₀ : Engine T, e₀.RecordsAcyclic c ∧ ScansRecorded c e₀ e

/-- What `executeTasks` promises, along the runs in which every build starts without a recorded cycle. -/
theorem success_invariant (c : Client T W) :
    RunInvariant c (Machine.StartsAcyclic c) (fun e => ∀ k, (e.ruleInfos k).isScanning = false)
      (ScansAcyclic c) (fun _ => True) (fun key _ e => e.Built key) where
  rest_flag := fun _ h => h
  loop_flag := fun _ ⟨hw, e₀, ha, hr⟩ => ⟨⟨hw.touched, hw.placed, hw.live, hw.rooted⟩, e₀, ha,
    ⟨hr.untouched, hr.record, hr.edges⟩⟩
  cancel_flag := fun _ _ => trivial
  built_flag := fun _ h => ⟨h.complete, h.tasks, h.scanning⟩
  loop_error := fun _ ⟨hw, e₀, ha, hr⟩ => ⟨⟨hw.touched, hw.placed, hw.live, hw.rooted⟩, e₀, ha,
    ⟨hr.untouched, hr.record, hr.edges⟩⟩
  cancel_error := fun _ _ => trivial
  build := fun {m key} hok hq hscan =>
    ⟨hq.waits_startBuild key, m.engine, hok, scansRecorded_startBuild hscan key⟩
  micro := fun _ hs ⟨hw, e₀, ha, hr⟩ hm => ⟨hm.waits hs.linked hw, e₀, ha, hm.scansRecorded hs.linked hr⟩
  complete := fun {m key t ti value forceChange} _ _ ⟨hw, e₀, ha, hr⟩ ht hc hnf =>
    let hcall : ThreadCall c m.engine _ := .taskIsComplete t ti value forceChange ht hc hnf
    ⟨hcall.waits hw, e₀, ha, hcall.scansRecorded hr⟩
  discovered := fun {m key t ti input} _ _ ⟨hw, e₀, ha, hr⟩ ht hc hnf =>
    let hcall : ThreadCall c m.engine _ := .discoveredDependency t ti input ht hc hnf
    ⟨hcall.waits hw, e₀, ha, hcall.scansRecorded hr⟩
  succeed := fun {key e} hs ⟨hw, e₀, ha, hr⟩ hn ht => by
    have hscan := not_scanning_of_noWork hs hw hr ha hn ht
    have hdone := built_of_noWork hs hw hn ht hscan
    exact ⟨hscan, ⟨hdone, ht, hscan⟩⟩
  giveUp := fun _ _ _ => trivial
  refuse := fun _ _ _ _ _ _ _ => trivial
  cancel_drain := fun _ => trivial
  cancel_call := fun _ _ _ => trivial
  cancelled := fun {m _ _ _} _ _ _ _ _ => not_scanning_cancelTasks m.engine

/-- **Success means built**, in every run in which each build starts with recorded dependencies that have no
    cycle. -/
theorem build_success {db : Option BuildDB} {m : Machine T} {key : KeyType} {value : ValueType}
    (hr : Machine.ReachableFrom c (Machine.StartsAcyclic c) (Machine.init db) m)
    (hphase : m.phase = .returned key true value) : m.engine.Built key := by
  have hinit : (init (T := T) db).Satisfies (fun e => ∀ k, (e.ruleInfos k).isScanning = false)
      (ScansAcyclic c) (fun _ => True) (fun key _ e => e.Built key) := by
    cases db <;> exact ⟨quiet_init _, fun _ => rfl⟩
  have hsat := (success_invariant c).holds hinit hr
  simp only [Machine.Satisfies, hphase] at hsat
  exact hsat.2.2 trivial

/-- Nothing has been built yet, so nothing is recorded. -/
theorem recordsAcyclic_init (c : Client T W) :
    (Machine.init (T := T) none).engine.RecordsAcyclic c := by
  intro k hk
  obtain ⟨x, ⟨⟨w, hbuilt, -⟩, -⟩, -⟩ := Relation.TransGen.head'_iff.mp hk
  exact hbuilt rfl

/-- The actions after `build([1])` where `[1]` needs `[2]`: both tasks complete, in this order. -/
def suppliedActions : List (Action Unit) :=
  List.replicate 16 (.work ()) ++ .complete 1 [2] false ::
    (List.replicate 24 (.work ()) ++ .complete 0 [1] false :: List.replicate 16 (.work ()))

theorem build_success_supplied :
    ∃ m, Machine.run (fixedClient (fun k => if k = [1] then [[2]] else []))
        ((Machine.init none).build [1]) suppliedActions = some m ∧
      m.phase = .returned [1] true [1] ∧ m.engine.Built [1] := by
  have hsome : ((run (fixedClient (fun k => if k = [1] then [[2]] else []))
      ((init none).build [1]) suppliedActions).map (fun m => m.phase)) =
      some (.returned [1] true [1]) := by decide +kernel
  obtain ⟨m, hm, hphase⟩ := Option.map_eq_some_iff.mp hsome
  -- no further build starts
  have hok : ∀ a ∈ suppliedActions, ∀ m' : Machine KeyType,
      m'.StartsAcyclic (fixedClient (fun k => if k = [1] then [[2]] else [])) a := by
    intro a ha m'
    simp only [suppliedActions, mem_append, mem_cons, mem_replicate] at ha
    rcases ha with ⟨-, rfl⟩ | rfl | ⟨-, rfl⟩ | rfl | ⟨-, rfl⟩ <;> trivial
  have hr := reachable_run _ _ m hok
    (.step (.build [1]) .refl (recordsAcyclic_init _) rfl) hm
  exact ⟨m, hm, hphase, build_success hr hphase⟩

/-- Two builds of `[1]`. In the first one the tasks of `[1]` and `[2]` report each other as discovered
    dependencies; the second one scans them. -/
def discoveredCycleActions : List (Action Unit) :=
  .build [1] :: (List.replicate 15 (.work ()) ++
    [.discoveredDependency 0 [2], .complete 0 [1] false] ++ List.replicate 24 (.work ()) ++
    [.discoveredDependency 1 [1], .complete 1 [2] false] ++ List.replicate 24 (.work ()) ++
    .build [1] :: List.replicate 24 (.work ()))

/-- The second build succeeds with both rules still being scanned. -/
theorem executeTasks_leaves_scanning :
    ¬ ∀ (m : Machine KeyType) (key : KeyType) (value : ValueType),
      m.Reachable (fixedClient (fun _ => [])) → m.phase = .returned key true value →
      m.engine.Built key := by
  intro h
  have hsome : ((run (fixedClient (fun _ => [])) (init none) discoveredCycleActions).map
      (fun m => (m.phase, (m.engine.ruleInfos [1]).isScanning))) =
      some (.returned [1] true [1], true) := by decide +kernel
  obtain ⟨m, hm, heq⟩ := Option.map_eq_some_iff.mp hsome
  obtain ⟨hphase, hscan⟩ := Prod.mk.inj heq
  have hr : m.Reachable (fixedClient (fun _ => [])) :=
    ⟨none, reachable_run _ _ m (fun _ _ _ => trivial) .refl hm⟩
  have hno := (h m [1] [1] hr hphase).scanning [1]
  rw [hscan] at hno
  exact absurd hno (by simp)

end Builra
