import Builra.Core.Board

namespace Builra

open Function List

/-!
# `Core.Ledger` — requests in the order they were made

A first-in first-out queue of requests with one way out of line: a request that is popped may be paused, and
goes back to the end of the queue when it is woken. What a task has asked for is what is recorded for it,
followed by its paused requests, the one in hand and its queued ones (`Ledger.InOrder`). Pausing and waking
keep this as long as a paused request is the only one of its task.
-/

/-- The entry of a dependency list that a request becomes. -/
def TaskInputRequest.dependency (r : TaskInputRequest) : Dependency :=
  { keyID := r.inputRuleInfo, orderOnly := r.orderOnly, singleUse := r.singleUse }

/-- The queue, the popped request, the paused requests of each rule, and for each task what is recorded
    (none if it is not registered) and what it has asked for. -/
@[ext] structure Ledger where
  queue : List TaskInputRequest
  held : List TaskInputRequest
  paused : KeyType → List TaskInputRequest
  recorded : TaskID → Option (List Dependency)
  asked : TaskID → List Dependency
  nextTask : TaskID

namespace Ledger

variable {l l' : Ledger} {n : TaskID}

variable (t : TaskID)

/-- The requests of task `t`. -/
def requestsOf (requests : List TaskInputRequest) : List TaskInputRequest :=
  requests.filter (fun r => r.names t)

@[simp] theorem requestsOf_append (rs rs' : List TaskInputRequest) :
    requestsOf t (rs ++ rs') = requestsOf t rs ++ requestsOf t rs' := filter_append ..

@[simp] theorem requestsOf_nil : requestsOf t [] = [] := rfl

theorem requestsOf_singleton (r : TaskInputRequest) :
    requestsOf t [r] = if r.taskInfo = some t then [r] else [] := by
  by_cases h : r.taskInfo = some t
  · simp [requestsOf, TaskInputRequest.names, h]
  · simp [requestsOf, TaskInputRequest.names, h]

variable {t : TaskID} {r : TaskInputRequest}

variable {rs waiting : List TaskInputRequest}

theorem requestsOf_eq_nil :
    requestsOf t rs = [] ↔ ∀ r ∈ rs, r.taskInfo ≠ some t := by
  simp [requestsOf, TaskInputRequest.names]

/-- The paused requests of task `t`: there is one at most. -/
inductive PausedOf (l : Ledger) (t : TaskID) : List TaskInputRequest → Prop where
  | none : (∀ k, requestsOf t (l.paused k) = []) → PausedOf l t []
  | one (k : KeyType) (r : TaskInputRequest) : requestsOf t (l.paused k) = [r] →
      (∀ k', k' ≠ k → requestsOf t (l.paused k') = []) → PausedOf l t [r]

theorem PausedOf.congr (h : l.PausedOf t waiting) (hp : ∀ k, requestsOf t (l'.paused k) = requestsOf t (l.paused k)) :
    l'.PausedOf t waiting := by
  cases h with
  | none hno => exact .none (fun k => (hp k).trans (hno k))
  | one k r hr hno => exact .one k r ((hp k).trans hr) (fun k' hk => (hp k').trans (hno k' hk))

theorem PausedOf.eq_nil (h : l.PausedOf t waiting) (hno : ∀ k, requestsOf t (l.paused k) = []) : waiting = [] := by
  cases h with
  | none _ => rfl
  | one k r hr _ =>
    rw [hno k] at hr
    exact absurd hr (by simp)

/-- **The requests of every task are in order.** -/
structure InOrder (l : Ledger) : Prop where
  ordered : ∀ t deps, l.recorded t = some deps → ∃ waiting, l.PausedOf t waiting ∧
    l.asked t = deps ++ (waiting ++ requestsOf t l.held ++ requestsOf t l.queue).map (·.dependency)
  fresh : ∀ t, l.nextTask ≤ t → l.recorded t = none ∧ l.asked t = [] ∧ requestsOf t l.queue = [] ∧
    requestsOf t l.held = [] ∧ ∀ k, requestsOf t (l.paused k) = []

/-! ## Moves that leave the queue alone but for its end -/

/-- Tasks are registered and released, tasks from `n` on make requests, and dummy requests are added. -/
inductive Move (n : TaskID) : Ledger → Ledger → Prop where
  | register {l : Ledger} :
      Move n l { l with recorded := Function.update l.recorded l.nextTask (some []), nextTask := l.nextTask + 1 }
  | release {l : Ledger} (t : TaskID) : Move n l { l with recorded := Function.update l.recorded t none }
  | request {l : Ledger} (t : TaskID) (r : TaskInputRequest) : n ≤ t → t < l.nextTask → r.taskInfo = some t →
      Move n l { l with
        queue := l.queue ++ [r]
        asked := Function.update l.asked t (l.asked t ++ [r.dependency]) }
  | addDummies {l : Ledger} (rs : List TaskInputRequest) : (∀ r ∈ rs, r.taskInfo = none) →
      Move n l { l with queue := l.queue ++ rs }

abbrev Moves (n : TaskID) : Ledger → Ledger → Prop := Relation.ReflTransGen (Move n)

theorem requestsOf_dummies (h : ∀ r ∈ rs, r.taskInfo = none) (t : TaskID) :
    requestsOf t rs = [] := by
  refine requestsOf_eq_nil.mpr (fun r hr => ?_)
  rw [h r hr]
  simp

theorem Move.inOrder (hm : Move n l l') (h : l.InOrder) : l'.InOrder := by
  cases hm with
  | register =>
    refine ⟨fun t deps hdeps => ?_, fun t ht => ?_⟩
    · by_cases heq : t = l.nextTask
      · -- nothing is known of a task that was just registered
        subst heq
        obtain ⟨-, hasked, hqueue, hheld, hpaused⟩ := h.fresh l.nextTask (le_refl _)
        have hnil : deps = [] := by simpa using hdeps.symm
        refine ⟨[], (PausedOf.none hpaused), ?_⟩
        simp [hasked, hqueue, hheld, hnil]
      · obtain ⟨waiting, hwait, hasked⟩ :=
          h.ordered t deps (by simpa [update_of_ne heq] using hdeps)
        exact ⟨waiting, hwait.congr (fun _ => rfl), hasked⟩
    · obtain ⟨hrec, hrest⟩ := h.fresh t (Nat.le_of_succ_le ht)
      have hne : t ≠ l.nextTask := Nat.ne_of_gt ht
      exact ⟨by simpa [update_of_ne hne] using hrec, hrest⟩
  | release t =>
    refine ⟨fun t' deps hdeps => ?_, fun t' ht' => ?_⟩
    · by_cases heq : t' = t
      · subst heq
        exact absurd hdeps (by simp)
      · obtain ⟨waiting, hwait, hasked⟩ :=
          h.ordered t' deps (by simpa [update_of_ne heq] using hdeps)
        exact ⟨waiting, hwait.congr (fun _ => rfl), hasked⟩
    · obtain ⟨hrec, hrest⟩ := h.fresh t' ht'
      refine ⟨?_, hrest⟩
      by_cases heq : t' = t
      · subst heq
        simp
      · simpa [update_of_ne heq] using hrec
  | request t r _ hlt hr =>
    refine ⟨fun t' deps hdeps => ?_, fun t' ht' => ?_⟩
    · obtain ⟨waiting, hwait, hasked⟩ := h.ordered t' deps hdeps
      refine ⟨waiting, hwait.congr (fun _ => rfl), ?_⟩
      by_cases heq : t' = t
      · subst heq
        simp [hasked, requestsOf_singleton, hr]
      · have hne : ¬ t = t' := fun h => heq h.symm
        simp [hasked, requestsOf_singleton, hr, heq, hne]
    · have hne : t' ≠ t := by
        rintro rfl
        exact absurd hlt (not_lt.mpr ht')
      obtain ⟨hrec, hasked, hqueue, hheld, hpaused⟩ := h.fresh t' ht'
      refine ⟨hrec, by simpa [update_of_ne hne] using hasked, ?_, hheld, hpaused⟩
      simp [requestsOf_singleton, hr, hqueue, hne.symm]
  | addDummies rs hrs =>
    refine ⟨fun t deps hdeps => ?_, fun t ht => ?_⟩
    · obtain ⟨waiting, hwait, hasked⟩ := h.ordered t deps hdeps
      exact ⟨waiting, hwait.congr (fun _ => rfl), by simpa [requestsOf_dummies hrs t] using hasked⟩
    · obtain ⟨hrec, hasked, hqueue, hheld, hpaused⟩ := h.fresh t ht
      exact ⟨hrec, hasked, by simp [hqueue, requestsOf_dummies hrs t], hheld, hpaused⟩

/-- What the moves leave alone. -/
theorem Move.frame (hm : Move n l l') : l'.paused = l.paused ∧ l'.held = l.held ∧ l.nextTask ≤ l'.nextTask ∧
    ∀ t, t < n → requestsOf t l'.queue = requestsOf t l.queue := by
  cases hm with
  | register => exact ⟨rfl, rfl, Nat.le_succ _, fun _ _ => rfl⟩
  | release t => exact ⟨rfl, rfl, le_refl _, fun _ _ => rfl⟩
  | request t r hn _ hr =>
    refine ⟨rfl, rfl, le_refl _, fun t' ht' => ?_⟩
    have hne : t ≠ t' := Nat.ne_of_gt (Nat.lt_of_lt_of_le ht' hn)
    simp [requestsOf_singleton, hr, hne]
  | addDummies rs hrs => exact ⟨rfl, rfl, le_refl _, fun t _ => by simp [requestsOf_dummies hrs t]⟩

theorem Moves.inOrder (hm : Moves n l l') (h : l.InOrder) : l'.InOrder := by
  induction hm with
  | refl => exact h
  | tail _ hmove ih => exact hmove.inOrder ih

theorem Moves.frame (hm : Moves n l l') : l'.paused = l.paused ∧ l'.held = l.held ∧ l.nextTask ≤ l'.nextTask ∧
    ∀ t, t < n → requestsOf t l'.queue = requestsOf t l.queue := by
  induction hm with
  | refl => exact ⟨rfl, rfl, le_refl _, fun _ _ => rfl⟩
  | tail _ hmove ih =>
    obtain ⟨hp, hh, hn, hq⟩ := hmove.frame
    obtain ⟨hp', hh', hn', hq'⟩ := ih
    exact ⟨hp.trans hp', hh.trans hh', hn'.trans hn, fun t ht => (hq t ht).trans (hq' t ht)⟩

theorem Moves.mono {m : TaskID} (hm : Moves n l l') (hle : m ≤ n) : Moves m l l' := by
  induction hm with
  | refl => exact .refl
  | tail _ hmove ih =>
    refine ih.tail ?_
    cases hmove with
    | register => exact .register
    | release t => exact .release t
    | request t r hn hlt hr => exact .request t r (hle.trans hn) hlt hr
    | addDummies rs hrs => exact .addDummies rs hrs

/-! ## Leaving the line -/

/-- The first request is popped. -/
theorem InOrder.pop (h : l.InOrder) {rest : List TaskInputRequest} (hq : l.queue = r :: rest) (hh : l.held = []) :
    InOrder { l with queue := rest, held := [r] } := by
  have hsame : ∀ t, requestsOf t [r] ++ requestsOf t rest = requestsOf t l.held ++ requestsOf t l.queue := by
    intro t
    rw [hq, hh, ← requestsOf_append]
    rfl
  refine ⟨fun t deps hdeps => ?_, fun t ht => ?_⟩
  · obtain ⟨waiting, hwait, hasked⟩ := h.ordered t deps hdeps
    refine ⟨waiting, hwait.congr (fun _ => rfl), ?_⟩
    rw [append_assoc] at hasked ⊢
    rw [hasked, hsame]
  · obtain ⟨hrec, hasked, hqueue, hheld, hpaused⟩ := h.fresh t ht
    have hnil := hsame t
    rw [hqueue, hheld, nil_append, append_eq_nil_iff] at hnil
    exact ⟨hrec, hasked, hnil.2, hnil.1, hpaused⟩

/-- A request of no task is dropped. -/
theorem InOrder.drop (h : l.InOrder) (hh : l.held = [r]) (hr : r.taskInfo = none) :
    InOrder { l with held := [] } := by
  have hnil : ∀ t, requestsOf t l.held = [] := by
    intro t
    rw [hh]
    exact requestsOf_dummies (by simp [hr]) t
  refine ⟨fun t deps hdeps => ?_, fun t ht => ?_⟩
  · obtain ⟨waiting, hwait, hasked⟩ := h.ordered t deps hdeps
    exact ⟨waiting, hwait.congr (fun _ => rfl), by simpa [hnil t] using hasked⟩
  · obtain ⟨hrec, hasked, hqueue, -, hpaused⟩ := h.fresh t ht
    exact ⟨hrec, hasked, hqueue, rfl, hpaused⟩

/-- The popped request is recorded, while no request of its task is paused. -/
theorem InOrder.record (h : l.InOrder) (hh : l.held = [r]) (hr : r.taskInfo = some t)
    (hp : ∀ k, requestsOf t (l.paused k) = []) :
    InOrder { l with
      held := []
      recorded := Function.update l.recorded t ((l.recorded t).map (fun deps => deps ++ [r.dependency])) } := by
  refine ⟨fun t' deps hdeps => ?_, fun t' ht' => ?_⟩
  · by_cases heq : t' = t
    · subst heq
      obtain ⟨deps₀, hdeps₀, rfl⟩ : ∃ deps₀, l.recorded t' = some deps₀ ∧ deps₀ ++ [r.dependency] = deps := by
        simpa using hdeps
      obtain ⟨waiting, hwait, hasked⟩ := h.ordered t' deps₀ hdeps₀
      obtain rfl := hwait.eq_nil hp
      refine ⟨[], .none hp, ?_⟩
      simp [hasked, hh, requestsOf_singleton, hr]
    · obtain ⟨waiting, hwait, hasked⟩ := h.ordered t' deps (by simpa [update_of_ne heq] using hdeps)
      have hne : ¬ t = t' := fun h => heq h.symm
      refine ⟨waiting, hwait.congr (fun _ => rfl), ?_⟩
      simpa [hh, requestsOf_singleton, hr, hne] using hasked
  · obtain ⟨hrec, hasked, hqueue, hheld, hpaused⟩ := h.fresh t' ht'
    refine ⟨?_, hasked, hqueue, rfl, hpaused⟩
    by_cases heq : t' = t
    · subst heq
      simp [hrec]
    · simpa [update_of_ne heq] using hrec

/-- The popped request is paused, while no other request of its task is. -/
theorem InOrder.pause (h : l.InOrder) (k : KeyType) (hh : l.held = [r])
    (hp : ∀ t, r.taskInfo = some t → ∀ k', requestsOf t (l.paused k') = []) :
    InOrder { l with held := [], paused := Function.update l.paused k (l.paused k ++ [r]) } := by
  have hother : ∀ t, r.taskInfo ≠ some t → ∀ k',
      requestsOf t (update l.paused k (l.paused k ++ [r]) k') = requestsOf t (l.paused k') := by
    intro t hne k'
    by_cases hk : k' = k
    · subst hk
      simp [requestsOf_singleton, hne]
    · rw [update_of_ne hk]
  refine ⟨fun t deps hdeps => ?_, fun t ht => ?_⟩
  · obtain ⟨waiting, hwait, hasked⟩ := h.ordered t deps hdeps
    by_cases hr : r.taskInfo = some t
    · obtain rfl := hwait.eq_nil (hp t hr)
      refine ⟨[r], .one k r ?_ (fun k' hk => ?_), ?_⟩
      · simp [hp t hr k, requestsOf_singleton, hr]
      · simpa [update_of_ne hk] using hp t hr k'
      · simp [hasked, hh, requestsOf_singleton, hr]
    · refine ⟨waiting, hwait.congr (hother t hr), ?_⟩
      simpa [hh, requestsOf_singleton, hr] using hasked
  · obtain ⟨hrec, hasked, hqueue, hheld, hpaused⟩ := h.fresh t ht
    have hr : r.taskInfo ≠ some t := by
      rw [hh] at hheld
      exact requestsOf_eq_nil.mp hheld r (mem_singleton_self r)
    exact ⟨hrec, hasked, hqueue, rfl, fun k' => (hother t hr k').trans (hpaused k')⟩

/-- The paused requests of a rule go back to the end of the queue. -/
def wake (l : Ledger) (k : KeyType) : Ledger :=
  { l with queue := l.queue ++ l.paused k, paused := Function.update l.paused k [] }

/-- Waking is fine for requests that are alone of their task. -/
theorem InOrder.wake (h : l.InOrder) (k : KeyType)
    (hq : ∀ r ∈ l.paused k, ∀ t, r.taskInfo = some t → requestsOf t l.queue = [] ∧ requestsOf t l.held = []) :
    (l.wake k).InOrder := by
  unfold Ledger.wake
  refine ⟨fun t deps hdeps => ?_, fun t ht => ?_⟩
  · obtain ⟨waiting, hwait, hasked⟩ := h.ordered t deps hdeps
    by_cases hk : requestsOf t (l.paused k) = []
    · refine ⟨waiting, hwait.congr (fun k' => ?_), ?_⟩
      · by_cases heq : k' = k
        · subst heq
          simp [hk]
        · simp [update_of_ne heq]
      · simpa [hk] using hasked
    · -- the paused request of `t` is the one that is woken
      cases hwait with
      | none hno => exact absurd (hno k) hk
      | one k₀ r hr hno =>
        obtain rfl : k = k₀ := by
          by_contra hne
          exact hk (hno k hne)
        have hmem : r ∈ l.paused k ∧ r.taskInfo = some t := by
          have hin : r ∈ requestsOf t (l.paused k) := by
            rw [hr]
            exact mem_singleton_self r
          exact ⟨(mem_filter.mp hin).1, names_iff.mp (mem_filter.mp hin).2⟩
        obtain ⟨hqueue, hheld⟩ := hq r hmem.1 t hmem.2
        refine ⟨[], .none (fun k' => ?_), ?_⟩
        · by_cases heq : k' = k
          · subst heq
            simp
          · simpa [update_of_ne heq] using hno k' heq
        · simpa [hqueue, hheld, hr] using hasked
  · obtain ⟨hrec, hasked, hqueue, hheld, hpaused⟩ := h.fresh t ht
    refine ⟨hrec, hasked, by simp [hqueue, hpaused k], hheld, fun k' => ?_⟩
    by_cases heq : k' = k
    · subst heq
      simp
    · simpa [update_of_ne heq] using hpaused k'

end Ledger

end Builra
