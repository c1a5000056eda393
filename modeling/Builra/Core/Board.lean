import Builra.Core.Types
import Builra.Lib.Tally

namespace Builra

open List Function Event

/-!
# `Core.Board` — the scheduler the engine implements

What the queues of `BuildEngineImpl` are for, without rules, scans and values: tasks make requests, every
request is queued until it is handed over, the task counts it down and becomes ready when nothing is left.
`Board.Move` lists the moves, `Board.Inv` is the accounting invariant with the history of requests and
deliveries, and `Board.Move.inv` shows that every move keeps it. `Core.Refine` shows that the engine moves
this way.
-/

/-- The status of a registered task: `waitCount`, and whether its rule is `InProgressComputing`. -/
structure TaskStatus where
  waitCount : Nat
  computing : Bool
deriving DecidableEq

/-- Whether a request was made by task `t`. -/
def TaskInputRequest.names (t : TaskID) (r : TaskInputRequest) : Bool := r.taskInfo = some t

variable {r : TaskInputRequest} {q : Multiset TaskInputRequest}

theorem names_iff {t : TaskID} : r.names t = true ↔ r.taskInfo = some t := by
  simp [TaskInputRequest.names]

/-- The request as it was made, before cycle breaking marked it. -/
def TaskInputRequest.unforced (r : TaskInputRequest) : TaskInputRequest :=
  { r with forcePriorValue := false }

/-- Whether an event is the making of request `r`. -/
def Event.requests (r : TaskInputRequest) : Event → Bool
  | .requestedInput r' => r' = r
  | _ => false

/-- Whether an event is the delivery of request `r`. -/
def Event.delivers (r : TaskInputRequest) : Event → Bool
  | .completedTaskInputRequest r' _ => r'.unforced = r
  | _ => false

variable (t : TaskID)

/-- Whether an event is a request made by task `t`. -/
def Event.requestOf : Event → Bool
  | .requestedInput r => r.names t
  | _ => false

/-- Whether an event tells task `t` that its inputs are available. -/
def Event.launches : Event → Bool
  | .inputsAvailable t' => t' = t
  | _ => false

/-- Events the scheduler does not produce. -/
def Event.isPlain : Event → Bool
  | .requestedInput _ | .completedTaskInputRequest _ _ | .inputsAvailable _ => false
  | _ => true

/-- The number of requests made by task `t`. -/
def numNaming (q : Multiset TaskInputRequest) : Nat := q.countP (fun r => r.names t = true)

/-- The number of copies of request `r`, forced or not. -/
def numCopies (r : TaskInputRequest) (q : Multiset TaskInputRequest) : Nat :=
  q.countP (fun q => q.unforced = r)

theorem numNaming_cons (r : TaskInputRequest) (q : Multiset TaskInputRequest) :
    numNaming t (r ::ₘ q) = numNaming t q + if r.taskInfo = some t then 1 else 0 := by
  rw [numNaming, Multiset.countP_cons]
  simp [numNaming, TaskInputRequest.names]

theorem numCopies_cons (r q : TaskInputRequest) (s : Multiset TaskInputRequest) :
    numCopies r (q ::ₘ s) = numCopies r s + if q.unforced = r then 1 else 0 := by
  rw [numCopies, Multiset.countP_cons]
  rfl

theorem numNaming_add (q q' : Multiset TaskInputRequest) :
    numNaming t (q + q') = numNaming t q + numNaming t q' := Multiset.countP_add _ _ _

theorem numCopies_add (r : TaskInputRequest) (q q' : Multiset TaskInputRequest) :
    numCopies r (q + q') = numCopies r q + numCopies r q' := Multiset.countP_add _ _ _

/-- Dummy requests are made by no task. -/
theorem numNaming_dummies (h : ∀ r ∈ q, r.taskInfo = none) (t : TaskID) : numNaming t q = 0 := by
  refine Multiset.countP_eq_zero.mpr (fun r hr => ?_)
  simp [TaskInputRequest.names, h r hr]

theorem numCopies_dummies (h : ∀ r ∈ q, r.taskInfo = none) {t : TaskID} (ht : r.taskInfo = some t) :
    numCopies r q = 0 := by
  refine Multiset.countP_eq_zero.mpr (fun r' hr' => ?_)
  rintro rfl
  simp [TaskInputRequest.unforced, h r' hr'] at ht

/-- The copies of a request of task `t` are among the requests of task `t`. -/
theorem numCopies_eq_zero {t : TaskID} (ht : r.taskInfo = some t) (h : numNaming t q = 0) : numCopies r q = 0 := by
  refine Multiset.countP_eq_zero.mpr (fun r' hr' => ?_)
  rintro rfl
  exact Multiset.countP_eq_zero.mp h r' hr' (names_iff.mpr ht)

/-- The state of the scheduler. `starting` is the task inside its first callbacks, `handing` the request
    that is being delivered. -/
@[ext] structure Board where
  queued : Multiset TaskInputRequest
  status : TaskID → Option TaskStatus
  nextTask : TaskID
  ready : List TaskID
  finished : List TaskID
  outstanding : Nat
  starting : Option TaskID
  handing : Option TaskInputRequest
  events : List Event

namespace Board

/-- Task `t` is registered and not yet computing. -/
def Waiting (b : Board) (t : TaskID) (n : Nat) : Prop := b.status t = some ⟨n, false⟩

/-- Task `t` is registered and computing. -/
def Computing (b : Board) (t : TaskID) : Prop := ∃ n, b.status t = some ⟨n, true⟩

instance (b : Board) (t : TaskID) : Decidable (b.Computing t) :=
  decidable_of_iff ((b.status t).any (fun s => s.computing) = true) (by
    unfold Computing
    cases h : b.status t with
    | none => simp
    | some s => cases s; simp)

/-- What task `t` waits for. -/
def waitCount (b : Board) (t : TaskID) : Nat := ((b.status t).map (fun s => s.waitCount)).getD 0

/-- Whether the request being delivered was made by task `t`. -/
def handingTo (b : Board) (t : TaskID) : Nat := if b.handing.any (fun r => r.names t) then 1 else 0

/-- **The moves of the scheduler.** -/
inductive Move : Board → Board → Prop where
  /-- Something happened that the scheduler does not see. -/
  | report {b} (event : Event) : event.isPlain = true →
      Move b { b with events := event :: b.events }
  | register {b} : b.starting = none → b.handing = none →
      Move b { b with
        status := Function.update b.status b.nextTask (some ⟨0, false⟩)
        nextTask := b.nextTask + 1
        starting := some b.nextTask }
  | request {b} (t : TaskID) (n : Nat) (r : TaskInputRequest) : b.Waiting t n →
      r.taskInfo = some t → r.forcePriorValue = false →
      (b.starting = some t ∨ b.handingTo t = 1) →
      Move b { b with
        queued := r ::ₘ b.queued
        status := Function.update b.status t (some ⟨n + 1, false⟩)
        events := .requestedInput r :: b.events }
  | startReady {b} (t : TaskID) : b.starting = some t → b.Waiting t 0 →
      Move b { b with starting := none, ready := b.ready ++ [t] }
  | startWaiting {b} (t : TaskID) (n : Nat) : b.starting = some t → b.Waiting t (n + 1) →
      Move b { b with starting := none }
  | addDummies {b} (rs : Multiset TaskInputRequest) : (∀ r ∈ rs, r.taskInfo = none) →
      Move b { b with queued := rs + b.queued }
  | dropDummy {b} (r : TaskInputRequest) (rest : Multiset TaskInputRequest) :
      r.taskInfo = none → b.queued = r ::ₘ rest → Move b { b with queued := rest }
  | force {b} (r : TaskInputRequest) (rest : Multiset TaskInputRequest) :
      b.queued = r ::ₘ rest →
      Move b { b with queued := { r with forcePriorValue := true } ::ₘ rest }
  | handOver {b} (r : TaskInputRequest) (t : TaskID) (value : ValueType)
      (rest : Multiset TaskInputRequest) : r.taskInfo = some t → b.starting = none → b.handing = none →
      b.queued = r ::ₘ rest →
      Move b { b with
        queued := rest
        handing := some r
        events := .completedTaskInputRequest r value :: b.events }
  | countDownReady {b} (r : TaskInputRequest) (t : TaskID) : b.starting = none →
      b.handing = some r → r.taskInfo = some t → b.Waiting t 1 →
      Move b { b with
        handing := none
        status := Function.update b.status t (some ⟨0, false⟩)
        ready := b.ready ++ [t] }
  | countDownWaiting {b} (r : TaskInputRequest) (t : TaskID) (n : Nat) : b.starting = none →
      b.handing = some r → r.taskInfo = some t → b.Waiting t (n + 2) →
      Move b { b with
        handing := none
        status := Function.update b.status t (some ⟨n + 1, false⟩) }
  | launch {b} (t : TaskID) (rest : List TaskID) : b.ready = t :: rest → b.Waiting t 0 →
      Move b { b with
        ready := rest
        status := Function.update b.status t (some ⟨0, true⟩)
        outstanding := b.outstanding + 1
        events := .inputsAvailable t :: b.events }
  | complete {b} (t : TaskID) : b.Computing t → t ∉ b.finished →
      Move b { b with finished := t :: b.finished }
  | release {b} (t : TaskID) (rest : List TaskID) : b.finished = t :: rest →
      Move b { b with
        finished := rest
        status := Function.update b.status t none
        outstanding := b.outstanding - 1 }

/-- **The accounting invariant.** -/
structure Inv (b : Board) : Prop where
  fresh : ∀ t, b.nextTask ≤ t → b.status t = none
  /-- No request is lost or counted twice. -/
  balance : ∀ t, b.waitCount t = numNaming t b.queued + b.handingTo t
  computing : ∀ t n, b.status t = some ⟨n, true⟩ → n = 0
  readyNodup : b.ready.Nodup
  ready : ∀ t, t ∈ b.ready ↔ b.Waiting t 0 ∧ b.starting ≠ some t
  finishedNodup : b.finished.Nodup
  finished : ∀ t ∈ b.finished, b.Computing t
  outstanding : b.outstanding = ((Finset.range b.nextTask).filter b.Computing).card
  starting : ∀ t, b.starting = some t → ∃ n, b.Waiting t n
  /-- Every request is queued or was delivered. -/
  history : ∀ r t, r.taskInfo = some t → r.forcePriorValue = false →
    b.events.countP (Event.requests r) = b.events.countP (Event.delivers r) + numCopies r b.queued
  /-- A task that was launched makes no more requests. -/
  launched : ∀ t, (∃ ev ∈ b.events, ev.launches t = true) → t < b.nextTask ∧ ∀ n, ¬ b.Waiting t n
  /-- When a task was launched, what it had asked for had been delivered, each once. -/
  settled : ∀ t later earlier, b.events = later ++ .inputsAvailable t :: earlier →
    (∀ ev ∈ later, ev.requestOf t = false ∧ ev.launches t = false) ∧
    ∀ r, r.taskInfo = some t → r.forcePriorValue = false →
      earlier.countP (Event.requests r) = earlier.countP (Event.delivers r)

/-! ## Each move keeps the invariant -/

variable {b : Board}

variable {t : TaskID} {r : TaskInputRequest} {event : Event} {v : Option TaskStatus} {n : Nat}
  {rest : Multiset TaskInputRequest}

theorem Inv.lt_nextTask (hb : b.Inv) {s : TaskStatus} (h : b.status t = some s) :
    t < b.nextTask := by
  by_contra hlt
  rw [hb.fresh t (Nat.le_of_not_lt hlt)] at h
  exact absurd h (by simp)

theorem waitCount_of_status {s : TaskStatus} (h : b.status t = some s) :
    b.waitCount t = s.waitCount := by
  simp [waitCount, h]

theorem handingTo_of_handing (h : b.handing = some r) (t : TaskID) :
    b.handingTo t = if r.names t then 1 else 0 := by
  simp [handingTo, h]

theorem handingTo_of_none (h : b.handing = none) (t : TaskID) : b.handingTo t = 0 := by
  simp [handingTo, h]

section

variable (hb : b.Inv)
include hb

/-- Adding an event that is no launch keeps the record of launches. -/
theorem Inv.settled_cons (hl : ∀ t, event.launches t = false)
    (hr : ∀ t, event.requestOf t = true → ∃ n, b.Waiting t n) :
    ∀ t later earlier, event :: b.events = later ++ .inputsAvailable t :: earlier →
      (∀ ev ∈ later, ev.requestOf t = false ∧ ev.launches t = false) ∧
      ∀ r, r.taskInfo = some t → r.forcePriorValue = false →
        earlier.countP (Event.requests r) = earlier.countP (Event.delivers r) := by
  intro t later earlier heq
  cases later with
  | nil =>
    obtain ⟨rfl, -⟩ := List.cons.inj heq
    exact absurd (hl t) (by simp [launches])
  | cons ev later =>
    obtain ⟨rfl, hrest⟩ := List.cons.inj heq
    obtain ⟨hno, hall⟩ := hb.settled t later earlier hrest
    refine ⟨?_, hall⟩
    intro ev' hev'
    rcases mem_cons.mp hev' with rfl | hmem
    · refine ⟨?_, hl t⟩
      by_contra hreq
      obtain ⟨n, hn⟩ := hr t (by simpa using hreq)
      have hin : ∃ ev ∈ b.events, ev.launches t = true :=
        ⟨.inputsAvailable t, by rw [hrest]; simp, by simp [launches]⟩
      exact (hb.launched t hin).2 n hn
    · exact hno ev' hmem

theorem Inv.launched_cons (hl : ∀ t, event.launches t = false) (t : TaskID)
    (h : ∃ ev ∈ event :: b.events, ev.launches t = true) :
    t < b.nextTask ∧ ∀ n, ¬ b.Waiting t n := by
  obtain ⟨ev, hev, hlaunch⟩ := h
  rcases mem_cons.mp hev with rfl | hmem
  · rw [hl t] at hlaunch
    exact absurd hlaunch (by simp)
  · exact hb.launched t ⟨ev, hmem, hlaunch⟩

theorem Inv.report (h : event.isPlain = true) :
    Inv { b with events := event :: b.events } := by
  have hl : ∀ t, event.launches t = false := by
    intro t; cases event <;> simp_all [isPlain, launches]
  have hr : ∀ t, event.requestOf t = true → ∃ n, b.Waiting t n := by
    intro t; cases event <;> simp_all [isPlain, requestOf]
  refine { hb with history := ?_, launched := hb.launched_cons hl, settled := hb.settled_cons hl hr }
  intro r t ht hf
  have hreq : event.requests r = false := by cases event <;> simp_all [isPlain, requests]
  have hdel : event.delivers r = false := by cases event <;> simp_all [isPlain, delivers]
  simpa [hreq, hdel] using hb.history r t ht hf

/-! What stays when the status of a registered task changes. -/

theorem Inv.fresh_update (hlt : t < b.nextTask) (v : Option TaskStatus) :
    ∀ t', b.nextTask ≤ t' → Function.update b.status t v t' = none := by
  intro t' ht'
  rw [update_of_ne (Nat.ne_of_gt (Nat.lt_of_lt_of_le hlt ht'))]
  exact hb.fresh t' ht'

theorem Inv.computing_update (hv : ∀ n, v = some ⟨n, true⟩ → n = 0) :
    ∀ t' n, Function.update b.status t v t' = some ⟨n, true⟩ → n = 0 := by
  intro t' n h
  by_cases heq : t' = t
  · subst heq
    rw [update_self] at h
    exact hv n h
  · rw [update_of_ne heq] at h
    exact hb.computing t' n h

theorem Inv.finished_update (hold : ¬ b.Computing t) (v : Option TaskStatus) :
    ∀ t' ∈ b.finished, ∃ n, Function.update b.status t v t' = some ⟨n, true⟩ := by
  intro t' ht'
  obtain ⟨n, hn⟩ := hb.finished t' ht'
  refine ⟨n, ?_⟩
  rw [update_of_ne]
  · exact hn
  · rintro rfl
    exact hold ⟨n, hn⟩

theorem Inv.starting_update (hv : b.starting = some t → ∃ n, v = some ⟨n, false⟩) :
    ∀ t', b.starting = some t' → ∃ n, Function.update b.status t v t' = some ⟨n, false⟩ := by
  intro t' ht'
  by_cases heq : t' = t
  · subst heq
    rw [update_self]
    exact hv ht'
  · rw [update_of_ne heq]
    exact hb.starting t' ht'

end

theorem waiting_update_of_ne {t' : TaskID} (h : t' ≠ t) (hno : ∀ n, ¬ b.Waiting t' n) :
    ∀ n, Function.update b.status t v t' ≠ some ⟨n, false⟩ := by
  rw [update_of_ne h]
  exact hno

/-- The number of computing tasks, when the status of `t` changes and it was and is not computing. -/
theorem card_computing_update (v : Option TaskStatus) (hold : ¬ b.Computing t) (hnew : ∀ m, v ≠ some ⟨m, true⟩) :
    ((Finset.range n).filter ({ b with status := Function.update b.status t v } : Board).Computing)
      = (Finset.range n).filter b.Computing := by
  refine Finset.filter_congr (fun t' _ => ?_)
  by_cases ht : t' = t
  · subst ht
    simp only [Computing, update_self]
    exact ⟨fun ⟨m, hm⟩ => absurd hm (hnew m), fun h => absurd h hold⟩
  · simp only [Computing, update_of_ne ht]

theorem not_computing_of_waiting (h : b.Waiting t n) : ¬ b.Computing t := by
  rintro ⟨m, hm⟩
  rw [h] at hm
  simp at hm

theorem not_computing_of_none (h : b.status t = none) : ¬ b.Computing t := by
  rintro ⟨m, hm⟩
  rw [h] at hm
  exact absurd hm (by simp)

section

variable (hb : b.Inv)
include hb

theorem Inv.register (hs : b.starting = none) :
    Inv { b with
      status := Function.update b.status b.nextTask (some ⟨0, false⟩)
      nextTask := b.nextTask + 1
      starting := some b.nextTask } := by
  have hnone := hb.fresh b.nextTask le_rfl
  have hwait : b.waitCount b.nextTask = 0 := by simp [waitCount, hnone]
  refine ⟨?_, ?_, ?_, hb.readyNodup, ?_, hb.finishedNodup, ?_, ?_, ?_, hb.history, ?_, hb.settled⟩
  · intro t ht
    dsimp only at ht ⊢
    rw [update_of_ne (Nat.ne_of_gt ht)]
    exact hb.fresh t (Nat.le_of_lt ht)
  · intro t
    have hbal := hb.balance t
    by_cases ht : t = b.nextTask
    · subst ht
      simpa [waitCount, handingTo, hnone] using hbal
    · simpa [waitCount, handingTo, update_of_ne ht] using hbal
  · exact hb.computing_update (by simp)
  · intro t
    rw [hb.ready t]
    by_cases ht : t = b.nextTask
    · subst ht; simp [Waiting, hnone]
    · have ht' : ¬ b.nextTask = t := fun h => ht h.symm
      simp [Waiting, update_of_ne ht, hs, ht']
  · exact hb.finished_update (not_computing_of_none hnone) _
  · dsimp only
    rw [Finset.range_add_one, Finset.filter_insert, if_neg, hb.outstanding]
    · exact congrArg Finset.card (card_computing_update _ (not_computing_of_none hnone) (by simp)).symm
    · rintro ⟨m, hm⟩; simp at hm
  · intro t ht
    cases ht
    exact ⟨0, by simp [Waiting]⟩
  · intro t ht
    obtain ⟨hlt, hno⟩ := hb.launched t ht
    exact ⟨Nat.lt_succ_of_lt hlt, waiting_update_of_ne hlt.ne hno⟩

/-- A task whose first callbacks run, or that a request is being delivered to, is not scheduled. -/
theorem Inv.not_ready (h : b.starting = some t ∨ b.handingTo t = 1) : t ∉ b.ready := by
  intro hmem
  obtain ⟨h0, hne⟩ := (hb.ready t).mp hmem
  rcases h with hs | hh
  · exact hne hs
  · have hbal := hb.balance t
    rw [waitCount_of_status h0, hh] at hbal
    dsimp only at hbal
    omega

theorem Inv.not_ready_of_handing (hh : b.handing = some r) (ht : r.taskInfo = some t) : t ∉ b.ready := by
  refine hb.not_ready (.inr ?_)
  rw [handingTo_of_handing hh, if_pos (names_iff.mpr ht)]

theorem Inv.request (hw : b.Waiting t n) (ht : r.taskInfo = some t) (hf : r.forcePriorValue = false)
    (hin : b.starting = some t ∨ b.handingTo t = 1) :
    Inv { b with
      queued := r ::ₘ b.queued
      status := Function.update b.status t (some ⟨n + 1, false⟩)
      events := .requestedInput r :: b.events } := by
  have hnr := hb.not_ready hin
  have hlt := hb.lt_nextTask hw
  have hl : ∀ t', (requestedInput r).launches t' = false := fun _ => rfl
  have hr : ∀ t', (requestedInput r).requestOf t' = true → ∃ n, b.Waiting t' n := by
    intro t' ht'
    rw [requestOf, names_iff, ht] at ht'
    cases ht'
    exact ⟨n, hw⟩
  refine ⟨?_, ?_, ?_, hb.readyNodup, ?_, hb.finishedNodup, ?_, ?_, ?_, ?_, ?_, hb.settled_cons hl hr⟩
  · exact hb.fresh_update hlt _
  · intro t'
    have hbal := hb.balance t'
    by_cases h : t' = t
    · subst h
      rw [waitCount_of_status hw] at hbal
      rw [numNaming_cons, if_pos ht]
      simp only [waitCount, handingTo, update_self, Option.map_some,
        Option.getD_some] at hbal ⊢
      omega
    · have hne : ¬ r.taskInfo = some t' := by rw [ht]; simpa using fun hh => h hh.symm
      rw [numNaming_cons, if_neg hne]
      simpa [waitCount, handingTo, update_of_ne h] using hbal
  · exact hb.computing_update (by simp)
  · intro t'
    by_cases heq : t' = t
    · subst heq
      simp [Waiting, hnr]
    · rw [hb.ready t']
      simp [Waiting, update_of_ne heq]
  · exact hb.finished_update (not_computing_of_waiting hw) _
  · exact hb.outstanding.trans
      (congrArg Finset.card (card_computing_update _ (not_computing_of_waiting hw) (by simp)).symm)
  · exact hb.starting_update fun _ => ⟨n + 1, rfl⟩
  · intro q t' hq hqf
    have hh := hb.history q t' hq hqf
    have hun : r.unforced = r := by simp [TaskInputRequest.unforced, ← hf]
    rw [numCopies_cons, hun]
    by_cases hrq : r = q
    · subst hrq
      simp only [countP_cons, requests, delivers, decide_true, if_true, hh,
        Bool.false_eq_true, if_false]
      omega
    · simp only [countP_cons, requests, delivers, hrq, decide_false, hh,
        Bool.false_eq_true, if_false, Nat.add_zero]
  · intro t' ht'
    obtain ⟨hlt', hno⟩ := hb.launched_cons hl t' ht'
    exact ⟨hlt', waiting_update_of_ne (by rintro rfl; exact hno n hw) hno⟩

theorem Inv.startReady (hs : b.starting = some t) (hw : b.Waiting t 0) :
    Inv { b with starting := none, ready := b.ready ++ [t] } := by
  have hnr := hb.not_ready (.inl hs)
  refine { hb with readyNodup := ?_, ready := ?_, starting := ?_ }
  · exact hb.readyNodup.append (nodup_singleton t) (by simpa using hnr)
  · intro t'
    rw [mem_append, hb.ready t', mem_singleton, hs]
    by_cases heq : t' = t
    · subst heq; simpa [Waiting] using hw
    · simp [Waiting, heq, Ne.symm heq]
  · intro t' ht'; exact absurd ht' (by simp)

theorem Inv.startWaiting (hs : b.starting = some t) (hw : b.Waiting t (n + 1)) :
    Inv { b with starting := none } := by
  refine { hb with ready := ?_, starting := ?_ }
  · intro t'
    rw [hb.ready t', hs]
    by_cases heq : t' = t
    · subst heq
      have h0 : ¬ b.Waiting t' 0 := by rw [Waiting, hw]; simp
      exact ⟨fun h => absurd h.1 h0, fun h => absurd h.1 h0⟩
    · simp [Waiting, Ne.symm heq]
  · intro t' ht'; exact absurd ht' (by simp)

theorem Inv.addDummies {rs : Multiset TaskInputRequest}
    (h : ∀ r ∈ rs, r.taskInfo = none) : Inv { b with queued := rs + b.queued } := by
  refine { hb with balance := ?_, history := ?_ }
  · intro t
    rw [numNaming_add, numNaming_dummies h, Nat.zero_add]
    exact hb.balance t
  · intro r t ht hf
    rw [numCopies_add, numCopies_dummies h ht, Nat.zero_add]
    exact hb.history r t ht hf

theorem Inv.dropDummy (hr : r.taskInfo = none) (hq : b.queued = r ::ₘ rest) :
    Inv { b with queued := rest } := by
  refine { hb with balance := ?_, history := ?_ }
  · intro t
    have hbal := hb.balance t
    rw [hq, numNaming_cons, if_neg (by rw [hr]; simp)] at hbal
    exact hbal
  · intro q t ht hf
    have hh := hb.history q t ht hf
    rw [hq, numCopies_cons, if_neg] at hh
    · exact hh
    · rintro rfl
      simp [TaskInputRequest.unforced, hr] at ht

theorem Inv.force (hq : b.queued = r ::ₘ rest) :
    Inv { b with queued := { r with forcePriorValue := true } ::ₘ rest } := by
  refine { hb with balance := ?_, history := ?_ }
  · intro t
    have hbal := hb.balance t
    rw [hq, numNaming_cons] at hbal
    rw [numNaming_cons]
    exact hbal
  · intro q t ht hf
    have hh := hb.history q t ht hf
    rw [hq, numCopies_cons] at hh
    rw [numCopies_cons]
    exact hh

theorem Inv.handOver {value : ValueType} (hh : b.handing = none) (hq : b.queued = r ::ₘ rest) :
    Inv { b with
      queued := rest
      handing := some r
      events := .completedTaskInputRequest r value :: b.events } := by
  have hl : ∀ t', (completedTaskInputRequest r value).launches t' = false := fun _ => rfl
  have hr : ∀ t', (completedTaskInputRequest r value).requestOf t' = true →
      ∃ n, b.Waiting t' n := fun _ h => absurd h (by simp [requestOf])
  refine { hb with
    balance := ?_, history := ?_, launched := hb.launched_cons hl, settled := hb.settled_cons hl hr }
  · intro t
    have hbal := hb.balance t
    rw [hq, numNaming_cons, handingTo_of_none hh] at hbal
    simpa [waitCount, handingTo, TaskInputRequest.names] using hbal
  · intro q t ht hf
    have hist := hb.history q t ht hf
    rw [hq, numCopies_cons] at hist
    simp only [countP_cons, requests, delivers, decide_eq_true_eq, hist,
      Bool.false_eq_true, if_false]
    omega

/-- The status of `t` changes from waiting to waiting, as a delivery is counted down. -/
theorem Inv.countDown (hh : b.handing = some r) (ht : r.taskInfo = some t) (hw : b.Waiting t (n + 1))
    {ready : List TaskID} (hnodup : ready.Nodup)
    (hready : ∀ t', t' ∈ ready ↔ t' ∈ b.ready ∨ (t' = t ∧ n = 0 ∧ b.starting ≠ some t)) :
    Inv { b with
      handing := none
      status := Function.update b.status t (some ⟨n, false⟩)
      ready := ready } := by
  have hlt := hb.lt_nextTask hw
  have hnr : t ∉ b.ready := hb.not_ready_of_handing hh ht
  refine ⟨?_, ?_, ?_, hnodup, ?_, hb.finishedNodup, ?_, ?_, ?_, hb.history, ?_, hb.settled⟩
  · exact hb.fresh_update hlt _
  · intro t'
    have hbal := hb.balance t'
    rw [handingTo_of_handing hh] at hbal
    by_cases h : t' = t
    · subst h
      rw [waitCount_of_status hw, if_pos (names_iff.mpr ht)] at hbal
      simpa [waitCount, handingTo] using hbal
    · rw [if_neg (by rw [names_iff, ht]; simpa using fun hh => h hh.symm)] at hbal
      simpa [waitCount, handingTo, update_of_ne h] using hbal
  · exact hb.computing_update (by simp)
  · intro t'
    dsimp only
    rw [hready t']
    by_cases heq : t' = t
    · subst heq; simp [Waiting, hnr]
    · simp [Waiting, heq, hb.ready t']
  · exact hb.finished_update (not_computing_of_waiting hw) _
  · exact hb.outstanding.trans
      (congrArg Finset.card (card_computing_update _ (not_computing_of_waiting hw) (by simp)).symm)
  · exact hb.starting_update fun _ => ⟨n, rfl⟩
  · intro t' ht'
    obtain ⟨hlt', hno⟩ := hb.launched t' ht'
    exact ⟨hlt', waiting_update_of_ne (by rintro rfl; exact hno _ hw) hno⟩

theorem Inv.launch {rest : List TaskID} (hr : b.ready = t :: rest) (hw : b.Waiting t 0) :
    Inv { b with
      ready := rest
      status := Function.update b.status t (some ⟨0, true⟩)
      outstanding := b.outstanding + 1
      events := .inputsAvailable t :: b.events } := by
  have hlt := hb.lt_nextTask hw
  have hnodup := hb.readyNodup
  rw [hr, nodup_cons] at hnodup
  have hbal0 := hb.balance t
  rw [waitCount_of_status hw] at hbal0
  dsimp only at hbal0
  refine ⟨?_, ?_, ?_, hnodup.2, ?_, hb.finishedNodup, ?_, ?_, ?_, ?_, ?_, ?_⟩
  · exact hb.fresh_update hlt _
  · intro t'
    have hbal := hb.balance t'
    by_cases h : t' = t
    · subst h
      rw [waitCount_of_status hw] at hbal
      simpa [waitCount, handingTo] using hbal
    · simpa [waitCount, handingTo, update_of_ne h] using hbal
  · exact hb.computing_update (by simp)
  · intro t'
    have hready := hb.ready t'
    rw [hr, mem_cons] at hready
    by_cases heq : t' = t
    · subst heq; simp [Waiting, hnodup.1]
    · simpa [Waiting, update_of_ne heq, heq] using hready
  · intro t' ht'
    by_cases heq : t' = t
    · subst heq; exact ⟨0, by simp⟩
    · obtain ⟨m, hm⟩ := hb.finished t' ht'
      exact ⟨m, by simpa [update_of_ne heq] using hm⟩
  · -- one more task computes
    have hset : (Finset.range b.nextTask).filter
        ({ b with status := update b.status t (some ⟨0, true⟩) } : Board).Computing
        = insert t ((Finset.range b.nextTask).filter b.Computing) := by
      ext t'
      by_cases heq : t' = t
      · subst heq; simp [Computing, hlt]
      · simp [Computing, heq]
    have hcard := congrArg Finset.card hset
    rw [Finset.card_insert_of_notMem (by simp [not_computing_of_waiting hw]),
      ← hb.outstanding] at hcard
    exact hcard.symm
  · refine hb.starting_update fun hstarting => ?_
    have hmem : t ∈ b.ready := by rw [hr]; simp
    exact absurd hstarting ((hb.ready t).mp hmem).2
  · intro q t' hq hf
    simpa [countP_cons, requests, delivers] using hb.history q t' hq hf
  · rintro t' ⟨ev, hev, hlaunch⟩
    by_cases heq : t' = t
    · subst heq
      exact ⟨hlt, fun m => by simp [Waiting]⟩
    · rcases mem_cons.mp hev with rfl | hmem
      · exact absurd (by simpa [launches] using hlaunch) (Ne.symm heq)
      · obtain ⟨hlt', hno⟩ := hb.launched t' ⟨ev, hmem, hlaunch⟩
        exact ⟨hlt', waiting_update_of_ne heq hno⟩
  · -- everything task `t` had asked for was delivered, because it waits for nothing
    intro t' later earlier heq
    cases later with
    | nil =>
      obtain ⟨hev, rfl⟩ := List.cons.inj heq
      obtain rfl : t = t' := by simpa using hev
      refine ⟨by simp, fun q hq hf => ?_⟩
      rw [hb.history q t hq hf, numCopies_eq_zero hq (by omega), Nat.add_zero]
    | cons ev later =>
      obtain ⟨rfl, hrest⟩ := List.cons.inj heq
      obtain ⟨hno, hall⟩ := hb.settled t' later earlier hrest
      refine ⟨?_, hall⟩
      intro ev' hev'
      rcases mem_cons.mp hev' with rfl | hmem
      · refine ⟨rfl, ?_⟩
        have hin : ∃ ev ∈ b.events, ev.launches t' = true :=
          ⟨.inputsAvailable t', by rw [hrest]; simp, by simp [launches]⟩
        have hne : t ≠ t' := by rintro rfl; exact (hb.launched t hin).2 0 hw
        simpa [launches] using hne
      · exact hno ev' hmem

theorem Inv.complete (hc : b.Computing t) (hn : t ∉ b.finished) :
    Inv { b with finished := t :: b.finished } := by
  refine { hb with finishedNodup := nodup_cons.mpr ⟨hn, hb.finishedNodup⟩, finished := ?_ }
  intro t' ht'
  rcases mem_cons.mp ht' with rfl | hmem
  · exact hc
  · exact hb.finished t' hmem

theorem Inv.release {rest : List TaskID} (hf : b.finished = t :: rest) :
    Inv { b with
      finished := rest
      status := Function.update b.status t none
      outstanding := b.outstanding - 1 } := by
  obtain ⟨n, hn⟩ := hb.finished t (by rw [hf]; simp)
  obtain rfl := hb.computing t n hn
  have hlt := hb.lt_nextTask hn
  have hnodup := hb.finishedNodup
  rw [hf, nodup_cons] at hnodup
  refine ⟨?_, ?_, ?_, hb.readyNodup, ?_, hnodup.2, ?_, ?_, ?_, hb.history, ?_, hb.settled⟩
  · exact hb.fresh_update hlt _
  · intro t'
    have hbal := hb.balance t'
    by_cases h : t' = t
    · subst h
      rw [waitCount_of_status hn] at hbal
      simpa [waitCount, handingTo] using hbal
    · simpa [waitCount, handingTo, update_of_ne h] using hbal
  · exact hb.computing_update (by simp)
  · intro t'
    rw [hb.ready t']
    by_cases heq : t' = t
    · subst heq; simp [Waiting, hn]
    · simp [Waiting, update_of_ne heq]
  · intro t' ht'
    have heq : t' ≠ t := by rintro rfl; exact hnodup.1 ht'
    obtain ⟨m, hm⟩ := hb.finished t' (by rw [hf]; exact mem_cons_of_mem _ ht')
    exact ⟨m, by simpa [update_of_ne heq] using hm⟩
  · -- one task less computes
    have hset : (Finset.range b.nextTask).filter
        ({ b with status := update b.status t none } : Board).Computing
        = ((Finset.range b.nextTask).filter b.Computing).erase t := by
      ext t'
      by_cases heq : t' = t
      · subst heq; simp [Computing]
      · simp [Computing, heq]
    have hcard := congrArg Finset.card hset
    rw [Finset.card_erase_of_mem (by simp [Computing, hlt, hn]), ← hb.outstanding] at hcard
    exact hcard.symm
  · refine hb.starting_update fun hstarting => ?_
    obtain ⟨m, hm⟩ := hb.starting t hstarting
    exact absurd ⟨0, hn⟩ (not_computing_of_waiting hm)
  · intro t' ht'
    obtain ⟨hlt', hno⟩ := hb.launched t' ht'
    refine ⟨hlt', fun m => ?_⟩
    by_cases heq : t' = t
    · subst heq; simp [Waiting]
    · simpa [Waiting, update_of_ne heq] using hno m

end

/-- **Every move of the scheduler keeps the accounting invariant.** -/
theorem Move.inv {b b' : Board} (hm : Move b b') (hb : b.Inv) : b'.Inv := by
  cases hm with
  | report event h => exact hb.report h
  | register hs hh => exact hb.register hs
  | request t n r hw ht hf hin => exact hb.request hw ht hf hin
  | startReady t hs hw => exact hb.startReady hs hw
  | startWaiting t n hs hw => exact hb.startWaiting hs hw
  | addDummies rs h => exact hb.addDummies h
  | dropDummy r rest hr hq => exact hb.dropDummy hr hq
  | force r rest hq => exact hb.force hq
  | handOver r t value rest ht hs hh hq => exact hb.handOver hh hq
  | countDownReady r t hs hh ht hw =>
    have hnr : t ∉ b.ready := hb.not_ready_of_handing hh ht
    refine hb.countDown hh ht hw (hb.readyNodup.append (nodup_singleton t) (by simpa using hnr)) ?_
    intro t'
    simp [hs]
  | countDownWaiting r t n hs hh ht hw =>
    exact hb.countDown hh ht hw hb.readyNodup (by simp)
  | launch t rest hr hw => exact hb.launch hr hw
  | complete t hc hn => exact hb.complete hc hn
  | release t rest hf => exact hb.release hf

/-- A list in which nothing of a kind stands before one of that kind holds at most one. -/
theorem countP_le_one {α : Type} {p : α → Bool} (l : List α)
    (h : ∀ later x earlier, l = later ++ x :: earlier → p x = true → ∀ y ∈ later, p y = false) :
    l.countP p ≤ 1 := by
  induction l with
  | nil => simp
  | cons a l ih =>
    have ih' := ih (fun later x earlier heq hx y hy =>
      h (a :: later) x earlier (by rw [heq]; rfl) hx y (mem_cons_of_mem _ hy))
    by_cases ha : p a = true
    · have hzero : l.countP p = 0 := by
        refine countP_eq_zero.mpr (fun x hx hpx => ?_)
        obtain ⟨later, earlier, rfl⟩ := append_of_mem hx
        have := h (a :: later) x earlier rfl hpx a (by simp)
        rw [ha] at this
        exact absurd this (by simp)
      simp [hzero, ha]
    · simpa [countP_cons, ha] using ih'

/-- A task is launched at most once. -/
theorem Inv.launched_once (hb : b.Inv) (t : TaskID) : b.events.countP (Event.launches t) ≤ 1 := by
  refine countP_le_one _ (fun later x earlier heq hx y hy => ?_)
  have hev : x = .inputsAvailable t := by
    cases x <;> simp_all [launches]
  subst hev
  exact ((hb.settled t later earlier heq).1 y hy).2

end Board

end Builra
