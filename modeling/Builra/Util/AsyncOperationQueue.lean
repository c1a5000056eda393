import Builra.Lib.Tally
import Mathlib.Algebra.Order.BigOperators.Group.Finset

namespace Builra

open List Function

/-!
# `Util.AsyncOperationQueue` — a queue with a limit on the operations that run

The locked sections of `waitIfNeeded`, of its cancellation handler and of `signalCompletion` as functions on the list
`waitingTasks`, and the calls of `withOperation` as a transition system: each action is one locked section, the return
of `waitIfNeeded`, or the end of an operation, and the actions of different calls interleave in any order.

Calls are numbered in the order of their first sections; the number stands for the `UUID` and for the continuation.

* `runs_within_limit` — operations keep to the limit as long as no call is let in past operations that are running,
  but are not in the list any more;
* `strands_nobody` — no call waits in vain as long as no call starts to wait while there is a place left; and whatever
  happens, each continuation is resumed at most once.
-/

namespace AsyncOperationQueue

/-! ## The list of tasks -/

abbrev ID := Nat

/-- `WorkTask`; a waiting task has the continuation of its own call. -/
inductive WorkTask where
  | creating (id : ID)
  | waiting (id : ID)
  | running (id : ID)
  | cancelled (id : ID)
deriving DecidableEq

def WorkTask.id : WorkTask → ID
  | creating id | waiting id | running id | cancelled id => id

/-- `waitingTasks[index] = task`, at the first index with the id. -/
def setEntry (id : ID) (task : WorkTask) : List WorkTask → List WorkTask
  | [] => []
  | t :: tasks => if t.id = id then task :: tasks else t :: setEntry id task tasks

/-- `waitingTasks.remove(at: index)`, at the first index with the id. -/
def removeEntry (id : ID) (tasks : List WorkTask) : List WorkTask := tasks.eraseP fun t => t.id = id

/-- `waitingTasks[index]`, at the first index with the id. -/
def entryOf (id : ID) (tasks : List WorkTask) : Option WorkTask := tasks.find? fun t => t.id = id

/-- How a continuation is resumed. -/
inductive Outcome where
  | success
  | cancellationError
deriving DecidableEq

/-- The first locked section of `waitIfNeeded`. -/
def newTask (concurrentTasks : Nat) (tasks : List WorkTask) (id : ID) : WorkTask :=
  if concurrentTasks ≤ tasks.length then .creating id else .running id

/-- The second locked section of `waitIfNeeded`, in which the call itself is counted. -/
def registerContinuation (concurrentTasks : Nat) (tasks : List WorkTask) (id : ID) :
    List WorkTask × Option Outcome :=
  match entryOf id tasks with
  | none => (tasks, some .cancellationError)
  | some (.cancelled _) => (removeEntry id tasks, some .cancellationError)
  | some (.creating _) | some (.running _) | some (.waiting _) =>
    if concurrentTasks ≤ tasks.length then (setEntry id (.waiting id) tasks, none)
    else (removeEntry id tasks, some .success)

/-- The locked section of the cancellation handler, with the continuation to resume; none where it stops the program. -/
def onCancel (tasks : List WorkTask) (id : ID) : Option (List WorkTask × Option ID) :=
  match entryOf id tasks with
  | none => some (tasks, none)
  | some (.waiting continuation) => some (removeEntry id tasks, some continuation)
  | some (.creating _) | some (.running _) => some (setEntry id (.cancelled id) tasks, none)
  | some (.cancelled _) => none

/-- `createTaskListOperations`, with the changes applied. The `break` for a task that is being created only leaves
    the `switch`. -/
def createTaskListOperations : List WorkTask → List WorkTask × Option ID
  | [] => ([], none)
  | .running id :: tasks =>
    (.running id :: (createTaskListOperations tasks).1, (createTaskListOperations tasks).2)
  | .creating id :: tasks =>
    (.creating id :: (createTaskListOperations tasks).1, (createTaskListOperations tasks).2)
  | .waiting id :: tasks => (tasks, some id)
  | .cancelled _ :: tasks => createTaskListOperations tasks

/-- The locked section of `signalCompletion`, with the continuation to resume. -/
def signalCompletion (tasks : List WorkTask) (id : ID) : List WorkTask × Option ID :=
  if tasks = [] then (tasks, none) else createTaskListOperations (removeEntry id tasks)

/-! ## Calls -/

/-- Where a call of `withOperation` is. -/
inductive Phase where
  /-- There is no such call yet. -/
  | absent
  /-- Between the two locked sections of `waitIfNeeded`. -/
  | creating
  /-- After them, until the continuation is resumed. -/
  | waiting
  /-- The call may go on, but `waitIfNeeded` has not returned. -/
  | starting
  /-- From the return of `waitIfNeeded` to the start of `signalCompletion`. -/
  | running
  /-- From there to its locked section. -/
  | completing
  | finished
  /-- The continuation was resumed with a `CancellationError`. -/
  | cancelled
deriving DecidableEq

/-- The queue and the calls made so far. -/
structure State where
  waitingTasks : List WorkTask := []
  calls : Nat := 0
  phase : ID → Phase := fun _ => .absent
  /-- The cancellation handler of the call ran. -/
  handled : ID → Bool := fun _ => false
  /-- The continuations that were resumed, with the latest first. -/
  resumed : List (ID × Outcome) := []

inductive Action where
  /-- A new call runs its first locked section. -/
  | enter
  /-- A call runs its second locked section. -/
  | register (id : ID)
  /-- The cancellation handler of a call runs its locked section. -/
  | cancel (id : ID)
  /-- `waitIfNeeded` returns. -/
  | begin (id : ID)
  /-- The operation ends and `signalCompletion` starts. -/
  | finish (id : ID)
  /-- `signalCompletion` runs its locked section. -/
  | signal (id : ID)
deriving DecidableEq

namespace State

def setPhase (s : State) (id : ID) (phase : Phase) : State := { s with phase := Function.update s.phase id phase }

/-- A continuation is resumed. -/
def resume (s : State) (id : ID) (outcome : Outcome) : State :=
  { s.setPhase id (match outcome with | .success => .starting | .cancellationError => .cancelled) with
    resumed := (id, outcome) :: s.resumed }

def resume? (s : State) (id : Option ID) (outcome : Outcome) : State :=
  match id with
  | none => s
  | some id => s.resume id outcome

end State

/-- One action, with its effect on the calls; none if it cannot happen. Once the continuation is resumed, the
    handler finds no entry, so that it is left out. -/
def step (concurrentTasks : Nat) (s : State) : Action → Option State
  | .enter =>
    let task := newTask concurrentTasks s.waitingTasks s.calls
    some { s with
      waitingTasks := s.waitingTasks ++ [task]
      calls := s.calls + 1
      phase := Function.update s.phase s.calls (match task with | .creating _ => .creating | _ => .starting) }
  | .register id =>
    if s.phase id = .creating then
      match registerContinuation concurrentTasks s.waitingTasks id with
      | (tasks, none) => some ({ s with waitingTasks := tasks }.setPhase id .waiting)
      | (tasks, some outcome) => some ({ s with waitingTasks := tasks }.resume id outcome)
    else none
  | .cancel id =>
    if (s.phase id = .creating ∨ s.phase id = .waiting) ∧ s.handled id = false then do
      let (tasks, continuation) ← onCancel s.waitingTasks id
      return { s with waitingTasks := tasks, handled := Function.update s.handled id true }.resume? continuation
        .cancellationError
    else none
  | .begin id => if s.phase id = .starting then some (s.setPhase id .running) else none
  | .finish id => if s.phase id = .running then some (s.setPhase id .completing) else none
  | .signal id =>
    if s.phase id = .completing then
      let (tasks, continuation) := signalCompletion s.waitingTasks id
      some (({ s with waitingTasks := tasks }.setPhase id .finished).resume? continuation .success)
    else none

/-- The states that are reached by actions that meet a condition. -/
inductive Reachable (concurrentTasks : Nat) (Meets : State → Action → Prop) : State → Prop where
  | init : Reachable concurrentTasks Meets {}
  | step {s s' : State} {a : Action} : Reachable concurrentTasks Meets s → Meets s a →
      step concurrentTasks s a = some s' → Reachable concurrentTasks Meets s'

/-- The calls in some phases. -/
def count (p : Phase → Bool) (s : State) : Nat := ∑ i ∈ Finset.range s.calls, if p (s.phase i) then 1 else 0

/-- The operations that are running. -/
def running (s : State) : Nat := count (· = .running) s

/-- A place is taken: the call may go on, and its `signalCompletion` has not run yet. -/
def Phase.holds : Phase → Bool
  | .starting | .running | .completing => true
  | _ => false

def holders (s : State) : Nat := count Phase.holds s

/-- The calls that have a place, but no entry in the list. -/
def unlisted (s : State) : Nat :=
  ∑ i ∈ Finset.range s.calls, if (s.phase i).holds && (entryOf i s.waitingTasks).isNone then 1 else 0

variable {concurrentTasks : Nat} {s s' : State} {id : ID}

theorem mem_of_entryOf {tasks : List WorkTask} {t : WorkTask} (h : entryOf id tasks = some t) : t ∈ tasks ∧ t.id = id :=
  ⟨mem_of_find?_eq_some h, by simpa using List.find?_some h⟩

/-! ## Counting calls -/

section Counting

variable (p : Phase → Bool) (s)

theorem count_setPhase_add {i : ID} (hi : i < s.calls) (q : Phase) :
    count p (s.setPhase i q) + (if p (s.phase i) then 1 else 0) = count p s + if p q then 1 else 0 := by
  have hupdate : (fun x => if p ((s.setPhase i q).phase x) then 1 else 0) =
      update (fun x => if p (s.phase x) then 1 else 0) i (if p q then 1 else 0) := by
    funext x
    by_cases hx : x = i
    · subst hx
      simp [State.setPhase]
    · simp [State.setPhase, hx]
  unfold count
  rw [show (s.setPhase i q).calls = s.calls from rfl, hupdate]
  exact Tally.sum_update_add (Finset.range s.calls) (fun x => if p (s.phase x) then 1 else 0)
    (Finset.mem_range.mpr hi) _

end Counting

/-- What an action does to the number of calls in some phases. -/
theorem count_enter (p : Phase → Bool) (q : Phase) (tasks : List WorkTask) :
    count p { s with waitingTasks := tasks, calls := s.calls + 1, phase := Function.update s.phase s.calls q } =
      count p s + if p q then 1 else 0 := by
  have hupdate : (fun x => if p (update s.phase s.calls q x) then 1 else 0) =
      update (fun x => if p (s.phase x) then 1 else 0) s.calls (if p q then 1 else 0) := by
    funext x
    by_cases hx : x = s.calls
    · subst hx
      simp
    · simp [hx]
  unfold count
  simp only [hupdate]
  exact Tally.sum_range_succ_update s.calls (fun x => if p (s.phase x) then 1 else 0) _

variable (s) in
/-- Every call that has a place is in the list or among the unlisted ones. -/
theorem holders_le : holders s ≤ s.waitingTasks.length + unlisted s := by
  have hlisted : ∑ i ∈ Finset.range s.calls,
      (if (s.phase i).holds && (entryOf i s.waitingTasks).isSome then 1 else 0) ≤ s.waitingTasks.length := by
    rw [← Finset.card_filter]
    refine (Finset.card_le_card (t := (s.waitingTasks.map WorkTask.id).toFinset) fun i hi => ?_).trans ?_
    · obtain ⟨-, hi⟩ := Finset.mem_filter.mp hi
      rw [Bool.and_eq_true, Option.isSome_iff_exists] at hi
      obtain ⟨-, t, ht⟩ := hi
      rw [mem_toFinset, mem_map]
      exact ⟨t, mem_of_entryOf ht⟩
    · exact (toFinset_card_le _).trans (length_map _).le
  refine le_trans (le_of_eq ?_) (Nat.add_le_add_right hlisted (unlisted s))
  unfold holders count unlisted
  rw [← Finset.sum_add_distrib]
  refine Finset.sum_congr rfl fun i _ => ?_
  cases (s.phase i).holds with
  | false => rfl
  | true => cases entryOf i s.waitingTasks <;> rfl

theorem running_le_holders : running s ≤ holders s := by
  show ∑ i ∈ Finset.range s.calls, (if decide (s.phase i = .running) then 1 else 0) ≤ holders s
  refine Finset.sum_le_sum fun i _ => ?_
  cases s.phase i <;> simp [Phase.holds]

/-! ## Entries -/

section Entries

variable {tasks : List WorkTask} {t task : WorkTask}

theorem entryOf_of_mem (hnodup : (tasks.map WorkTask.id).Nodup) (ht : t ∈ tasks) : entryOf t.id tasks = some t := by
  induction tasks with
  | nil => cases ht
  | cons u tasks ih =>
    rw [map_cons, nodup_cons] at hnodup
    rcases mem_cons.mp ht with rfl | ht
    · simp [entryOf]
    · have hne : u.id ≠ t.id := fun h => hnodup.1 (h ▸ mem_map_of_mem ht)
      have := ih hnodup.2 ht
      simp only [entryOf] at this ⊢
      rw [List.find?_cons_of_neg (by simpa using hne), this]

theorem sublist_removeEntry (id : ID) (tasks : List WorkTask) : (removeEntry id tasks).Sublist tasks :=
  eraseP_sublist

theorem mem_removeEntry (hnodup : (tasks.map WorkTask.id).Nodup) :
    t ∈ removeEntry id tasks ↔ t ∈ tasks ∧ t.id ≠ id := by
  induction tasks with
  | nil => simp [removeEntry]
  | cons u tasks ih =>
    rw [map_cons, nodup_cons] at hnodup
    by_cases hu : u.id = id
    · have hremove : removeEntry id (u :: tasks) = tasks := by simp [removeEntry, hu]
      rw [hremove, mem_cons]
      constructor
      · intro ht
        exact ⟨Or.inr ht, fun h => hnodup.1 (mem_map.mpr ⟨t, ht, h.trans hu.symm⟩)⟩
      · rintro ⟨rfl | ht, hne⟩
        · exact absurd hu hne
        · exact ht
    · have hremove : removeEntry id (u :: tasks) = u :: removeEntry id tasks := by simp [removeEntry, hu]
      rw [hremove, mem_cons, mem_cons, ih hnodup.2]
      constructor
      · rintro (rfl | ⟨ht, hne⟩)
        · exact ⟨Or.inl rfl, hu⟩
        · exact ⟨Or.inr ht, hne⟩
      · rintro ⟨rfl | ht, hne⟩
        · exact Or.inl rfl
        · exact Or.inr ⟨ht, hne⟩

theorem map_id_setEntry (h : task.id = id) : (setEntry id task tasks).map WorkTask.id = tasks.map WorkTask.id := by
  induction tasks with
  | nil => rfl
  | cons u tasks ih =>
    rw [setEntry]
    split
    · rename_i hu
      rw [map_cons, map_cons, h, hu]
    · rw [map_cons, map_cons, ih]

theorem mem_setEntry_of_ne (hne : t.id ≠ id) (h : task.id = id) : t ∈ setEntry id task tasks ↔ t ∈ tasks := by
  induction tasks with
  | nil => simp [setEntry]
  | cons u tasks ih =>
    rw [setEntry]
    split
    · rename_i hu
      have htask : t ≠ task := fun heq => hne (heq ▸ h)
      have htu : t ≠ u := fun heq => hne (heq ▸ hu)
      simp [htask, htu]
    · rw [mem_cons, mem_cons, ih]

/-- The entry with the id is replaced. -/
theorem mem_setEntry_self (ht : t ∈ tasks) (hid : t.id = id) : task ∈ setEntry id task tasks := by
  induction tasks with
  | nil => cases ht
  | cons u tasks ih =>
    rw [setEntry]
    split
    · exact mem_cons_self
    · rename_i hu
      rcases mem_cons.mp ht with rfl | ht
      · exact absurd hid hu
      · exact mem_cons_of_mem _ (ih ht)

theorem eq_of_mem_setEntry (hnodup : (tasks.map WorkTask.id).Nodup) (h : task.id = id)
    (ht : t ∈ setEntry id task tasks) (hid : t.id = id) : t = task := by
  have hnodup' : ((setEntry id task tasks).map WorkTask.id).Nodup := by rw [map_id_setEntry h]; exact hnodup
  have hmem : id ∈ tasks.map WorkTask.id := by
    rw [← map_id_setEntry h]
    exact mem_map.mpr ⟨t, ht, hid⟩
  obtain ⟨u, hu, huid⟩ := mem_map.mp hmem
  have hmem : task ∈ setEntry id task tasks := mem_setEntry_self hu huid
  have hself := entryOf_of_mem hnodup' hmem
  have hother := entryOf_of_mem hnodup' ht
  rw [h] at hself
  rw [hid, hself] at hother
  exact (Option.some.inj hother).symm

/-- **What `signalCompletion` does to the list**: some entries go, and the first task that waits is the next. -/
theorem createTaskListOperations_spec (tasks : List WorkTask) : (createTaskListOperations tasks).1.Sublist tasks ∧
    (∀ c, (createTaskListOperations tasks).2 = some c →
      .waiting c ∈ tasks ∧ ((tasks.map WorkTask.id).Nodup → ∀ t ∈ (createTaskListOperations tasks).1, t.id ≠ c)) ∧
    ∀ j, .waiting j ∈ tasks →
      (createTaskListOperations tasks).2 = some j ∨ .waiting j ∈ (createTaskListOperations tasks).1 ∧
        (createTaskListOperations tasks).2.isSome = true := by
  induction tasks with
  | nil => exact ⟨List.Sublist.refl _, fun c hc => (by cases hc), fun j hj => (by cases hj)⟩
  | cons u tasks ih =>
    obtain ⟨hsub, hnext, hkept⟩ := ih
    -- an entry that is passed over
    have hpass : ∀ u : WorkTask, (∀ j, u ≠ .waiting j) → (u :: (createTaskListOperations tasks).1).Sublist (u :: tasks) ∧
        (∀ c, (createTaskListOperations tasks).2 = some c →
          .waiting c ∈ u :: tasks ∧ (((u :: tasks).map WorkTask.id).Nodup →
            ∀ t ∈ u :: (createTaskListOperations tasks).1, t.id ≠ c)) ∧
        ∀ j, .waiting j ∈ u :: tasks → (createTaskListOperations tasks).2 = some j ∨
          .waiting j ∈ u :: (createTaskListOperations tasks).1 ∧ (createTaskListOperations tasks).2.isSome = true := by
      intro u hu
      refine ⟨hsub.cons_cons u, fun c hc => ?_, fun j hj => ?_⟩
      · obtain ⟨hmem, hne⟩ := hnext c hc
        refine ⟨mem_cons_of_mem _ hmem, fun hnodup t ht => ?_⟩
        rw [map_cons, nodup_cons] at hnodup
        rcases mem_cons.mp ht with rfl | ht
        · exact fun h => hnodup.1 (mem_map.mpr ⟨_, hmem, h.symm⟩)
        · exact hne hnodup.2 t ht
      · rcases mem_cons.mp hj with h | hj
        · exact absurd h.symm (hu j)
        · exact (hkept j hj).imp_right fun h => ⟨mem_cons_of_mem _ h.1, h.2⟩
    cases u with
    | running i => exact hpass (.running i) fun j h => (by cases h)
    | creating i => exact hpass (.creating i) fun j h => (by cases h)
    | waiting i =>
      refine ⟨sublist_cons_self _ _, fun c hc => ?_, fun j hj => ?_⟩
      · cases hc
        refine ⟨mem_cons_self, fun hnodup t ht h => ?_⟩
        rw [map_cons, nodup_cons] at hnodup
        exact hnodup.1 (mem_map.mpr ⟨t, ht, h⟩)
      · rcases mem_cons.mp hj with h | hj
        · cases h
          exact Or.inl rfl
        · exact Or.inr ⟨hj, rfl⟩
    | cancelled i =>
      refine ⟨hsub.cons _, fun c hc => ?_, fun j hj => ?_⟩
      · obtain ⟨hmem, hne⟩ := hnext c hc
        refine ⟨mem_cons_of_mem _ hmem, fun hnodup => hne ?_⟩
        rw [map_cons, nodup_cons] at hnodup
        exact hnodup.2
      · rcases mem_cons.mp hj with h | hj
        · cases h
        · exact hkept j hj

end Entries

/-! ## Invariants -/

/-- What an entry of the list says of its call. -/
def WorkTask.Fits (phase : Phase) (handled : Bool) : WorkTask → Prop
  | .creating _ => phase = .creating ∧ handled = false
  | .cancelled _ => phase = .creating ∧ handled = true
  | .waiting _ => phase = .waiting ∧ handled = false
  | .running _ => phase.holds = true

/-- **The list and the calls agree.** -/
structure Listed (s : State) : Prop where
  absent : ∀ i, s.calls ≤ i → s.phase i = .absent
  unhandled : ∀ i, s.calls ≤ i → s.handled i = false
  nodup : (s.waitingTasks.map WorkTask.id).Nodup
  fits : ∀ t ∈ s.waitingTasks, t.Fits (s.phase t.id) (s.handled t.id)
  waiting : ∀ i, s.phase i = .waiting → .waiting i ∈ s.waitingTasks

/-- The continuation of a call in the phase was resumed, or it has none. -/
def Phase.isPast : Phase → Bool
  | .absent | .creating | .waiting => false
  | _ => true

/-- **What was resumed agrees with the calls.** -/
structure Logged (s : State) : Prop where
  nodup : (s.resumed.map Prod.fst).Nodup
  isPast : ∀ r ∈ s.resumed, (s.phase r.1).isPast = true
  cancelled : ∀ i, s.phase i = .cancelled → (i, .cancellationError) ∈ s.resumed

variable {i : ID} {Meets : State → Action → Prop} {q : Phase}

theorem Listed.lt_calls (h : Listed s) (hi : s.phase i ≠ .absent) : i < s.calls := by
  by_contra hlt
  exact hi (h.absent i (Nat.not_lt.mp hlt))

/-- One call changes, and with it its entry. -/
theorem Listed.change (h : Listed s) (hi : s.phase i ≠ .absent) (hcalls : s'.calls = s.calls)
    (hframe : ∀ j, j ≠ i → s'.phase j = s.phase j ∧ s'.handled j = s.handled j)
    (hnodup : (s'.waitingTasks.map WorkTask.id).Nodup)
    (hother : ∀ t, t.id ≠ i → t ∈ s'.waitingTasks → t ∈ s.waitingTasks)
    (hself : ∀ t ∈ s'.waitingTasks, t.id = i → t.Fits (s'.phase i) (s'.handled i))
    (hkept : ∀ j, j ≠ i → .waiting j ∈ s.waitingTasks → .waiting j ∈ s'.waitingTasks)
    (hwaiting : s'.phase i = .waiting → .waiting i ∈ s'.waitingTasks) : Listed s' where
  absent := fun j hj => by
    rw [hcalls] at hj
    have hne : j ≠ i := fun heq => hi (h.absent i (heq ▸ hj))
    rw [(hframe j hne).1]
    exact h.absent j hj
  unhandled := fun j hj => by
    rw [hcalls] at hj
    have hne : j ≠ i := fun heq => hi (h.absent i (heq ▸ hj))
    rw [(hframe j hne).2]
    exact h.unhandled j hj
  nodup := hnodup
  fits := fun t ht => by
    by_cases hid : t.id = i
    · rw [hid]
      exact hself t ht hid
    · rw [(hframe t.id hid).1, (hframe t.id hid).2]
      exact h.fits t (hother t hid ht)
  waiting := fun j hj => by
    by_cases hid : j = i
    · subst hid
      exact hwaiting hj
    · rw [(hframe j hid).1] at hj
      exact hkept j hid (h.waiting j hj)

/-- A call goes on without being resumed. -/
theorem Logged.change (h : Logged s) (hframe : ∀ j, j ≠ i → s'.phase j = s.phase j)
    (hresumed : s'.resumed = s.resumed) (hpast : (s.phase i).isPast = true → (s'.phase i).isPast = true)
    (hcancelled : s'.phase i ≠ .cancelled) : Logged s' where
  nodup := hresumed ▸ h.nodup
  isPast := fun r hr => by
    rw [hresumed] at hr
    by_cases hid : r.1 = i
    · rw [hid]
      exact hpast (hid ▸ h.isPast r hr)
    · rw [hframe r.1 hid]
      exact h.isPast r hr
  cancelled := fun j hj => by
    by_cases hid : j = i
    · exact absurd (hid ▸ hj) hcancelled
    · rw [hframe j hid] at hj
      rw [hresumed]
      exact h.cancelled j hj

/-- **A continuation is resumed once**: before, the call waited or was being created. -/
theorem Logged.resume (h : Logged s) (hi : (s.phase i).isPast = false) (outcome : Outcome) :
    Logged (s.resume i outcome) where
  nodup := by
    show (((i, outcome) :: s.resumed).map Prod.fst).Nodup
    rw [map_cons, nodup_cons]
    refine ⟨fun hmem => ?_, h.nodup⟩
    obtain ⟨r, hr, hri⟩ := mem_map.mp hmem
    have hpast := h.isPast r hr
    rw [hri, hi] at hpast
    cases hpast
  isPast := fun r hr => by
    by_cases hid : r.1 = i
    · subst hid
      cases outcome <;> simp [State.resume, State.setPhase, Phase.isPast]
    · have hphase : (s.resume i outcome).phase r.1 = s.phase r.1 := update_of_ne hid _ _
      rw [hphase]
      rcases mem_cons.mp hr with rfl | hr
      · exact absurd rfl hid
      · exact h.isPast r hr
  cancelled := fun j hj => by
    by_cases hid : j = i
    · subst hid
      cases outcome with
      | success => simp [State.resume, State.setPhase] at hj
      | cancellationError => exact mem_cons_self
    · have hphase : (s.resume i outcome).phase j = s.phase j := update_of_ne hid _ _
      rw [hphase] at hj
      exact mem_cons_of_mem _ (h.cancelled j hj)

/-! ## What an action does -/

/-- The effect of an action in a state in which the list and the calls agree. -/
inductive Effect (concurrentTasks : Nat) (s : State) : Action → State → Prop where
  | enterCreating (hfull : concurrentTasks ≤ s.waitingTasks.length) : Effect concurrentTasks s .enter
      { s with waitingTasks := s.waitingTasks ++ [.creating s.calls], calls := s.calls + 1,
               phase := Function.update s.phase s.calls .creating }
  | enterRunning (hfree : s.waitingTasks.length < concurrentTasks) : Effect concurrentTasks s .enter
      { s with waitingTasks := s.waitingTasks ++ [.running s.calls], calls := s.calls + 1,
               phase := Function.update s.phase s.calls .starting }
  | registerWaiting {id : ID} (hphase : s.phase id = .creating) (hmem : .creating id ∈ s.waitingTasks)
      (hfull : concurrentTasks ≤ s.waitingTasks.length) : Effect concurrentTasks s (.register id)
      ({ s with waitingTasks := setEntry id (.waiting id) s.waitingTasks }.setPhase id .waiting)
  | registerStarting {id : ID} (hphase : s.phase id = .creating) (hmem : .creating id ∈ s.waitingTasks)
      (hfree : s.waitingTasks.length < concurrentTasks) : Effect concurrentTasks s (.register id)
      ({ s with waitingTasks := removeEntry id s.waitingTasks }.resume id .success)
  | registerCancelled {id : ID} (hphase : s.phase id = .creating) : Effect concurrentTasks s (.register id)
      ({ s with waitingTasks := removeEntry id s.waitingTasks }.resume id .cancellationError)
  | cancelCreating {id : ID} (hphase : s.phase id = .creating) (hmem : .creating id ∈ s.waitingTasks) :
      Effect concurrentTasks s (.cancel id)
      { s with waitingTasks := setEntry id (.cancelled id) s.waitingTasks, handled := Function.update s.handled id true }
  | cancelWaiting {id : ID} (hphase : s.phase id = .waiting) (hmem : .waiting id ∈ s.waitingTasks) :
      Effect concurrentTasks s (.cancel id)
      ({ s with waitingTasks := removeEntry id s.waitingTasks, handled := Function.update s.handled id true }.resume id
        .cancellationError)
  | cancelGone {id : ID} (hphase : s.phase id = .creating) (hgone : entryOf id s.waitingTasks = none) :
      Effect concurrentTasks s (.cancel id) { s with handled := Function.update s.handled id true }
  | begin {id : ID} (hphase : s.phase id = .starting) : Effect concurrentTasks s (.begin id) (s.setPhase id .running)
  | finish {id : ID} (hphase : s.phase id = .running) :
      Effect concurrentTasks s (.finish id) (s.setPhase id .completing)
  | signal {id : ID} (hphase : s.phase id = .completing) : Effect concurrentTasks s (.signal id)
      (({ s with waitingTasks := (createTaskListOperations (removeEntry id s.waitingTasks)).1 }.setPhase id
        .finished).resume? (createTaskListOperations (removeEntry id s.waitingTasks)).2 .success)

/-- The entry of a call that is being created. -/
theorem Listed.entry_of_creating (h : Listed s) (hphase : s.phase id = .creating) {t : WorkTask}
    (ht : entryOf id s.waitingTasks = some t) :
    (t = .creating id ∧ s.handled id = false) ∨ (t = .cancelled id ∧ s.handled id = true) := by
  obtain ⟨hmem, rfl⟩ := mem_of_entryOf ht
  have hfits := h.fits t hmem
  cases t with
  | creating i => exact Or.inl ⟨rfl, hfits.2⟩
  | cancelled i => exact Or.inr ⟨rfl, hfits.2⟩
  | waiting i =>
    have hwaiting : s.phase i = .waiting := hfits.1
    rw [show s.phase i = .creating from hphase] at hwaiting
    cases hwaiting
  | running i =>
    have hholds : (s.phase i).holds = true := hfits
    rw [show s.phase i = .creating from hphase] at hholds
    cases hholds

/-- **Every action has one of these effects**; in particular no cancellation handler stops the program. -/
theorem Listed.effect (h : Listed s) {a : Action} (hstep : step concurrentTasks s a = some s') :
    Effect concurrentTasks s a s' := by
  cases a with
  | enter =>
    simp only [step, newTask] at hstep
    split at hstep
    · rename_i hfull
      cases hstep
      exact .enterCreating hfull
    · rename_i hfree
      cases hstep
      exact .enterRunning (Nat.not_le.mp hfree)
  | register id =>
    simp only [step] at hstep
    split at hstep
    · rename_i hphase
      unfold registerContinuation at hstep
      cases hentry : entryOf id s.waitingTasks with
      | none =>
        have hgone : removeEntry id s.waitingTasks = s.waitingTasks := by
          refine eraseP_of_forall_not fun t ht => ?_
          exact List.find?_eq_none.mp hentry t ht
        rw [hentry] at hstep
        cases hstep
        have heffect : Effect concurrentTasks s (.register id) _ := .registerCancelled hphase
        rw [hgone] at heffect
        exact heffect
      | some t =>
        rw [hentry] at hstep
        rcases h.entry_of_creating hphase hentry with ⟨rfl, -⟩ | ⟨rfl, -⟩
        · simp only at hstep
          by_cases hfull : concurrentTasks ≤ s.waitingTasks.length
          · rw [if_pos hfull] at hstep
            cases hstep
            exact .registerWaiting hphase (mem_of_entryOf hentry).1 hfull
          · rw [if_neg hfull] at hstep
            cases hstep
            exact .registerStarting hphase (mem_of_entryOf hentry).1 (Nat.not_le.mp hfull)
        · cases hstep
          exact .registerCancelled hphase
    · cases hstep
  | cancel id =>
    simp only [step] at hstep
    split at hstep
    · rename_i hphase
      obtain ⟨hphase | hphase, hhandled⟩ := hphase
      · unfold onCancel at hstep
        cases hentry : entryOf id s.waitingTasks with
        | none =>
          rw [hentry] at hstep
          cases hstep
          exact .cancelGone hphase hentry
        | some t =>
          rw [hentry] at hstep
          rcases h.entry_of_creating hphase hentry with ⟨rfl, -⟩ | ⟨rfl, htrue⟩
          · cases hstep
            exact .cancelCreating hphase (mem_of_entryOf hentry).1
          · rw [htrue] at hhandled
            cases hhandled
      · have hmem := h.waiting id hphase
        have hentry : entryOf id s.waitingTasks = some (.waiting id) := entryOf_of_mem h.nodup hmem
        unfold onCancel at hstep
        rw [hentry] at hstep
        cases hstep
        exact .cancelWaiting hphase hmem
    · cases hstep
  | begin id =>
    simp only [step] at hstep
    split at hstep
    · rename_i hphase
      cases hstep
      exact .begin hphase
    · cases hstep
  | finish id =>
    simp only [step] at hstep
    split at hstep
    · rename_i hphase
      cases hstep
      exact .finish hphase
    · cases hstep
  | signal id =>
    simp only [step] at hstep
    split at hstep
    · rename_i hphase
      have hsignal : signalCompletion s.waitingTasks id =
          createTaskListOperations (removeEntry id s.waitingTasks) := by
        unfold signalCompletion
        split
        · rename_i hnil
          rw [hnil]
          rfl
        · rfl
      rw [hsignal] at hstep
      cases hstep
      exact .signal hphase
    · cases hstep

/-! ## The invariants are kept -/

section Kept

theorem resume_frame {outcome : Outcome} {j : ID} (hj : j ≠ id) : (s.resume id outcome).phase j = s.phase j :=
  update_of_ne hj _ _

theorem setPhase_frame {q : Phase} {j : ID} (hj : j ≠ id) : (s.setPhase id q).phase j = s.phase j :=
  update_of_ne hj _ _

theorem nodup_of_sublist {tasks tasks' : List WorkTask} (h : tasks'.Sublist tasks)
    (hnodup : (tasks.map WorkTask.id).Nodup) : (tasks'.map WorkTask.id).Nodup :=
  hnodup.sublist (h.map WorkTask.id)

/-- A call whose entry is removed; it does not wait any more. -/
theorem Listed.remove (h : Listed s) {i : ID} (hi : s.phase i ≠ .absent) (hcalls : s'.calls = s.calls)
    (hframe : ∀ j, j ≠ i → s'.phase j = s.phase j ∧ s'.handled j = s.handled j)
    (htasks : s'.waitingTasks = removeEntry i s.waitingTasks) (hphase : s'.phase i ≠ .waiting) : Listed s' := by
  refine h.change hi hcalls hframe ?_ (fun t _ ht => ?_) (fun t ht hid => ?_) (fun j hj hmem => ?_)
    fun hwaiting => absurd hwaiting hphase
  · rw [htasks]
    exact nodup_of_sublist (sublist_removeEntry i _) h.nodup
  · rw [htasks] at ht
    exact ((mem_removeEntry h.nodup).mp ht).1
  · rw [htasks] at ht
    exact absurd hid ((mem_removeEntry h.nodup).mp ht).2
  · rw [htasks]
    exact (mem_removeEntry h.nodup).mpr ⟨hmem, hj⟩

/-- A call whose entry is replaced. -/
theorem Listed.replace (h : Listed s) {i : ID} (hi : s.phase i ≠ .absent) (hcalls : s'.calls = s.calls)
    (hframe : ∀ j, j ≠ i → s'.phase j = s.phase j ∧ s'.handled j = s.handled j) {task : WorkTask}
    (htask : task.id = i) (htasks : s'.waitingTasks = setEntry i task s.waitingTasks)
    (hfits : task.Fits (s'.phase i) (s'.handled i)) {t : WorkTask} (ht : t ∈ s.waitingTasks) (hid : t.id = i)
    (hwaiting : s'.phase i = .waiting → task = .waiting i) : Listed s' := by
  refine h.change hi hcalls hframe ?_ (fun t hne ht => ?_) (fun t ht hid => ?_) (fun j hj hmem => ?_) fun hphase => ?_
  · rw [htasks, map_id_setEntry htask]
    exact h.nodup
  · rw [htasks] at ht
    exact (mem_setEntry_of_ne hne htask).mp ht
  · rw [htasks] at ht
    rw [eq_of_mem_setEntry h.nodup htask ht hid]
    exact hfits
  · rw [htasks]
    exact (mem_setEntry_of_ne (t := .waiting j) hj htask).mpr hmem
  · rw [htasks, ← hwaiting hphase]
    exact mem_setEntry_self ht hid

/-- A new call. -/
theorem Listed.enter (h : Listed s) {task : WorkTask} {q : Phase} (htask : task.id = s.calls)
    (hfits : task.Fits q (s.handled s.calls)) (hq : q ≠ .waiting) :
    Listed { s with waitingTasks := s.waitingTasks ++ [task], calls := s.calls + 1,
                    phase := Function.update s.phase s.calls q } where
  absent := fun j hj => by
    have hlt : s.calls < j := hj
    simp only [update_of_ne hlt.ne']
    exact h.absent j hlt.le
  unhandled := fun j hj => h.unhandled j (Nat.le_of_succ_le hj)
  nodup := by
    show ((s.waitingTasks ++ [task]).map WorkTask.id).Nodup
    rw [map_append, nodup_append]
    refine ⟨h.nodup, nodup_singleton _, fun i hi j hj hij => ?_⟩
    -- the entries are those of earlier calls
    obtain ⟨t, ht, rfl⟩ := mem_map.mp hi
    have hcalls : t.id = s.calls := by
      rw [hij, mem_singleton.mp hj, htask]
    have hfits := h.fits t ht
    rw [hcalls, h.absent s.calls le_rfl] at hfits
    cases t <;> simp [WorkTask.Fits, Phase.holds] at hfits
  fits := fun t ht => by
    rcases mem_append.mp ht with ht | ht
    · have hne : t.id ≠ s.calls := by
        intro hcalls
        have hfits := h.fits t ht
        rw [hcalls, h.absent s.calls le_rfl] at hfits
        cases t <;> simp [WorkTask.Fits, Phase.holds] at hfits
      simp only [update_of_ne hne]
      exact h.fits t ht
    · rw [mem_singleton.mp ht]
      simp only [htask, update_self]
      exact hfits
  waiting := fun j hj => by
    by_cases hid : j = s.calls
    · subst hid
      simp only [update_self] at hj
      exact absurd hj hq
    · simp only [update_of_ne hid] at hj
      exact mem_append_left _ (h.waiting j hj)

/-- **An action keeps the list and the calls in agreement.** -/
theorem Listed.step (h : Listed s) {a : Action} (heffect : Effect concurrentTasks s a s') : Listed s' := by
  cases heffect with
  | enterCreating => exact h.enter rfl ⟨rfl, h.unhandled _ le_rfl⟩ (by simp)
  | enterRunning => exact h.enter rfl rfl (by simp)
  | @registerWaiting id hphase hmem =>
    refine h.replace (i := id) (by simp [hphase]) rfl (fun j hj => ⟨setPhase_frame hj, rfl⟩) rfl rfl ?_ hmem rfl
      fun _ => rfl
    exact ⟨update_self _ _ _, (h.fits _ hmem).2⟩
  | @registerStarting id hphase | @registerCancelled id hphase =>
    refine h.remove (i := id) (by simp [hphase]) rfl (fun j hj => ⟨resume_frame hj, rfl⟩) rfl ?_
    simp [State.resume, State.setPhase]
  | @cancelCreating id hphase hmem =>
    refine h.replace (i := id) (by simp [hphase]) rfl (fun j hj => ⟨rfl, update_of_ne hj _ _⟩) rfl rfl
      ⟨hphase, update_self _ _ _⟩ hmem rfl fun hwaiting => ?_
    rw [show s.phase id = .waiting from hwaiting] at hphase
    cases hphase
  | @cancelWaiting id hphase =>
    refine h.remove (i := id) (by simp [hphase]) rfl
      (fun j hj => ⟨resume_frame hj, update_of_ne hj _ _⟩) rfl ?_
    simp [State.resume, State.setPhase]
  | @cancelGone id hphase hgone =>
    refine h.change (i := id) (by simp [hphase]) rfl (fun j hj => ⟨rfl, update_of_ne hj _ _⟩) h.nodup
      (fun t _ ht => ht) (fun t ht hid => ?_) (fun j _ hmem => hmem) fun hwaiting => h.waiting id hwaiting
    rw [← hid, entryOf_of_mem h.nodup ht] at hgone
    cases hgone
  | @begin id hphase | @finish id hphase =>
    refine h.change (i := id) (by simp [hphase]) rfl (fun j hj => ⟨setPhase_frame hj, rfl⟩) h.nodup
      (fun t _ ht => ht) (fun t ht hid => ?_) (fun j _ hmem => hmem) fun hwaiting => ?_
    · have hfits := h.fits t ht
      rw [hid, hphase] at hfits
      cases t <;> simp_all [WorkTask.Fits, State.setPhase, Phase.holds]
    · simp [State.setPhase] at hwaiting
  | @signal id hphase =>
    -- first the call goes, then the next one is started
    have hgone : Listed ({ s with waitingTasks := removeEntry id s.waitingTasks }.setPhase id .finished) := by
      refine h.remove (i := id) (by simp [hphase]) rfl (fun j hj => ⟨setPhase_frame hj, rfl⟩) rfl ?_
      simp [State.setPhase]
    obtain ⟨hsub, hnext, hkept⟩ := createTaskListOperations_spec (removeEntry id s.waitingTasks)
    have hnodup := nodup_of_sublist hsub hgone.nodup
    cases hc : (createTaskListOperations (removeEntry id s.waitingTasks)).2 with
    | none =>
      refine hgone.change (i := id) (by simp [State.setPhase]) rfl (fun j _ => ⟨rfl, rfl⟩) hnodup
        (fun t _ ht => hsub.subset ht) (fun t ht hid => ?_) (fun j _ hmem => ?_) fun hwaiting => ?_
      · exact absurd hid ((mem_removeEntry h.nodup).mp (hsub.subset ht)).2
      · rcases hkept j hmem with hj | ⟨-, hsome⟩
        · rw [hc] at hj
          cases hj
        · rw [hc] at hsome
          cases hsome
      · simp [State.setPhase, State.resume?] at hwaiting
    | some c =>
      obtain ⟨hmem, hne⟩ := hnext c hc
      have hwaits : ({ s with waitingTasks := removeEntry id s.waitingTasks }.setPhase id .finished).phase c =
          .waiting := (hgone.fits _ hmem).1
      refine hgone.change (i := c) (by simp [hwaits]) rfl (fun j hj => ⟨update_of_ne hj _ _, rfl⟩) hnodup
        (fun t _ ht => hsub.subset ht) (fun t ht hid => ?_) (fun j hj hmem => ?_) fun hwaiting => ?_
      · exact absurd hid (hne hgone.nodup t ht)
      · rcases hkept j hmem with hjc | ⟨hmem, -⟩
        · rw [hc] at hjc
          exact absurd (Option.some.inj hjc).symm hj
        · exact hmem
      · simp [State.resume?, State.resume, State.setPhase] at hwaiting

/-- **An action resumes at most one continuation**, which was not resumed before. -/
theorem Logged.step (h : Logged s) (hlisted : Listed s) {a : Action} (heffect : Effect concurrentTasks s a s') :
    Logged s' := by
  have hresume : ∀ tasks handled id {outcome}, (s.phase id).isPast = false →
      Logged ({ s with waitingTasks := tasks, handled := handled }.resume id outcome) := by
    intro tasks handled id outcome hpast
    have hsame : Logged { s with waitingTasks := tasks, handled := handled } := ⟨h.nodup, h.isPast, h.cancelled⟩
    exact hsame.resume hpast outcome
  cases heffect with
  | enterCreating =>
    refine h.change (i := s.calls) (fun j hj => update_of_ne hj _ _) rfl (fun hpast => ?_) (by simp)
    rw [hlisted.absent s.calls le_rfl] at hpast
    cases hpast
  | enterRunning =>
    exact h.change (i := s.calls) (fun j hj => update_of_ne hj _ _) rfl
      (fun _ => by simp [Phase.isPast]) (by simp)
  | @registerWaiting id hphase =>
    refine h.change (i := id) (fun j hj => setPhase_frame hj) rfl (fun hpast => ?_) (by simp [State.setPhase])
    rw [hphase] at hpast
    cases hpast
  | @registerStarting id hphase | @registerCancelled id hphase | @cancelWaiting id hphase =>
    exact hresume _ _ _ (by rw [hphase]; rfl)
  | @cancelCreating id hphase | @cancelGone id hphase => exact ⟨h.nodup, h.isPast, h.cancelled⟩
  | @begin id hphase | @finish id hphase =>
    exact h.change (i := id) (fun j hj => setPhase_frame hj) rfl (fun _ => by simp [State.setPhase, Phase.isPast])
      (by simp [State.setPhase])
  | @signal id hphase =>
    have hgone : Logged ({ s with waitingTasks := (createTaskListOperations (removeEntry id s.waitingTasks)).1 }.setPhase
        id .finished) :=
      h.change (i := id) (fun j hj => setPhase_frame hj) rfl (fun _ => by simp [State.setPhase, Phase.isPast])
        (by simp [State.setPhase])
    cases hc : (createTaskListOperations (removeEntry id s.waitingTasks)).2 with
    | none => exact hgone
    | some c =>
      refine hgone.resume ?_ .success
      obtain ⟨hmem, -⟩ := (createTaskListOperations_spec (removeEntry id s.waitingTasks)).2.1 c hc
      obtain ⟨hmem, hne⟩ := (mem_removeEntry hlisted.nodup).mp hmem
      have hwaits : s.phase c = .waiting := (hlisted.fits _ hmem).1
      have hframe : ({ s with waitingTasks := (createTaskListOperations (removeEntry id s.waitingTasks)).1 }.setPhase
          id .finished).phase c = s.phase c := setPhase_frame hne
      rw [hframe, hwaits]
      rfl

end Kept

theorem Reachable.agree (h : Reachable concurrentTasks Meets s) :
    Listed s ∧ Logged s := by
  induction h with
  | init =>
    exact ⟨⟨fun _ _ => rfl, fun _ _ => rfl, nodup_nil, fun t ht => (by cases ht), fun i hi => (by cases hi)⟩,
      ⟨nodup_nil, fun r hr => (by cases hr), fun i hi => (by cases hi)⟩⟩
  | step _ _ hstep ih =>
    have heffect := ih.1.effect hstep
    exact ⟨ih.1.step heffect, ih.2.step ih.1 heffect⟩

/-! ## The limit -/

/-- A call that is let in because the list is short is let in as well if the calls that have a place, but no entry,
    are counted. -/
def CountsUnlisted (concurrentTasks : Nat) (s : State) : Action → Prop
  | .enter => s.waitingTasks.length < concurrentTasks → s.waitingTasks.length + unlisted s < concurrentTasks
  | .register id => .creating id ∈ s.waitingTasks → s.waitingTasks.length < concurrentTasks →
      s.waitingTasks.length + unlisted s < concurrentTasks
  | _ => True

/-- The places that are taken after one call changed. -/
theorem holders_change (h : Listed s) (hi : s.phase i ≠ .absent) (hcalls : s'.calls = s.calls)
    (hphase : s'.phase = Function.update s.phase i q) :
    holders s' + (if (s.phase i).holds then 1 else 0) = holders s + if q.holds then 1 else 0 := by
  have hsame : holders s' = holders (s.setPhase i q) := by
    unfold holders count
    rw [hcalls, hphase]
    rfl
  rw [hsame]
  exact count_setPhase_add s Phase.holds (h.lt_calls hi) q

theorem holders_same (h : Listed s) (hi : s.phase i ≠ .absent) (hcalls : s'.calls = s.calls)
    (hphase : s'.phase = Function.update s.phase i q) (hq : q.holds = (s.phase i).holds) : holders s' = holders s := by
  have hchange := holders_change h hi hcalls hphase
  rw [hq] at hchange
  exact Nat.add_right_cancel hchange

theorem holders_more (h : Listed s) (hi : s.phase i ≠ .absent) (hcalls : s'.calls = s.calls)
    (hphase : s'.phase = Function.update s.phase i q) (hbefore : (s.phase i).holds = false) (hq : q.holds = true) :
    holders s' = holders s + 1 := by
  have hchange := holders_change h hi hcalls hphase
  rw [hbefore, hq] at hchange
  exact hchange

theorem holders_less (h : Listed s) (hi : s.phase i ≠ .absent) (hcalls : s'.calls = s.calls)
    (hphase : s'.phase = Function.update s.phase i q) (hbefore : (s.phase i).holds = true) (hq : q.holds = false) :
    holders s' + 1 = holders s := by
  have hchange := holders_change h hi hcalls hphase
  rw [hbefore, hq] at hchange
  exact hchange

/-- **How places change hands**: a new call or one that did not have to wait takes a place; a call that completes
    gives its place to the next one that waits, or leaves it. -/
inductive Places (concurrentTasks : Nat) (s : State) : Action → State → Prop where
  | enter {s' : State} (hfree : s.waitingTasks.length < concurrentTasks) (h : holders s' = holders s + 1) :
      Places concurrentTasks s .enter s'
  | register {s' : State} {id : ID} (hmem : .creating id ∈ s.waitingTasks)
      (hfree : s.waitingTasks.length < concurrentTasks) (h : holders s' = holders s + 1) :
      Places concurrentTasks s (.register id) s'
  | leave {s' : State} {id : ID} (hnone : ∀ j, s.phase j ≠ .waiting) (h : holders s' + 1 = holders s) :
      Places concurrentTasks s (.signal id) s'
  | same {s' : State} {a : Action} (h : holders s' = holders s) : Places concurrentTasks s a s'

theorem Listed.places (h : Listed s) {a : Action} (heffect : Effect concurrentTasks s a s') :
    Places concurrentTasks s a s' := by
  cases heffect with
  | enterCreating => exact .same (count_enter Phase.holds .creating _)
  | enterRunning hfree => exact .enter hfree (count_enter Phase.holds .starting _)
  | @registerWaiting id hphase | @registerCancelled id hphase | @cancelWaiting id hphase =>
    exact .same (holders_same h (i := id) (by simp [hphase]) rfl rfl (by rw [hphase]; rfl))
  | @registerStarting id hphase hmem hfree =>
    exact .register hmem hfree (holders_more h (i := id) (by simp [hphase]) rfl rfl (by rw [hphase]; rfl) rfl)
  | @cancelCreating id hphase | @cancelGone id hphase => exact .same rfl
  | @begin id hphase | @finish id hphase =>
    exact .same (holders_same h (i := id) (by simp [hphase]) rfl rfl (by rw [hphase]; rfl))
  | @signal id hphase =>
    have hgone : holders ({ s with waitingTasks := removeEntry id s.waitingTasks }.setPhase id .finished) + 1 =
        holders s := holders_less h (i := id) (by simp [hphase]) rfl rfl (by rw [hphase]; rfl) rfl
    have hlisted : Listed ({ s with waitingTasks := removeEntry id s.waitingTasks }.setPhase id .finished) := by
      refine h.remove (i := id) (by simp [hphase]) rfl (fun j hj => ⟨setPhase_frame hj, rfl⟩) rfl ?_
      simp [State.setPhase]
    obtain ⟨-, hnext, hkept⟩ := createTaskListOperations_spec (removeEntry id s.waitingTasks)
    cases hc : (createTaskListOperations (removeEntry id s.waitingTasks)).2 with
    | none =>
      refine .leave (fun j hj => ?_) hgone
      have hne : j ≠ id := fun hji => by
        rw [hji, hphase] at hj
        cases hj
      rcases hkept j ((mem_removeEntry h.nodup).mpr ⟨h.waiting j hj, hne⟩) with hjc | ⟨-, hsome⟩
      · rw [hc] at hjc
        cases hjc
      · rw [hc] at hsome
        cases hsome
    | some c =>
      have hwaits : ({ s with waitingTasks := removeEntry id s.waitingTasks }.setPhase id .finished).phase c =
          .waiting := (hlisted.fits _ (hnext c hc).1).1
      refine .same ?_
      rw [← hgone]
      exact holders_more hlisted (i := c) (by simp [hwaits]) rfl rfl (by rw [hwaits]; rfl) rfl

/-- **Operations keep to the limit** in every run in which the unlisted calls are counted. -/
theorem runs_within_limit (h : Reachable concurrentTasks (CountsUnlisted concurrentTasks) s) :
    running s ≤ concurrentTasks := by
  refine running_le_holders.trans ?_
  induction h with
  | init => exact Nat.zero_le _
  | @step s s' a hreach hmeets hstep ih =>
    have hlisted := hreach.agree.1
    have hbound := holders_le s
    cases hlisted.places (hlisted.effect hstep) with
    | enter hfree h =>
      have hlt := hmeets hfree
      omega
    | register hmem hfree h =>
      have hlt := hmeets hmem hfree
      omega
    | leave _ h | same h => omega

/-! ## Waiting calls -/

/-- A call starts to wait only while all places are taken. -/
def WaitsForPlace (concurrentTasks : Nat) (s : State) : Action → Prop
  | .register id => .creating id ∈ s.waitingTasks → concurrentTasks ≤ s.waitingTasks.length →
      concurrentTasks ≤ holders s
  | _ => True

/-- No locked section is pending, and every call that may go on does. -/
def Settled (s : State) : Prop :=
  ∀ i, s.phase i ≠ .creating ∧ s.phase i ≠ .starting ∧ s.phase i ≠ .completing

theorem holders_eq_running (h : Settled s) : holders s = running s := by
  show ∑ i ∈ Finset.range s.calls, (if (s.phase i).holds then 1 else 0) =
    ∑ i ∈ Finset.range s.calls, (if decide (s.phase i = .running) then 1 else 0)
  refine Finset.sum_congr rfl fun i _ => ?_
  obtain ⟨-, hstarting, hcompleting⟩ := h i
  cases hphase : s.phase i <;> simp_all [Phase.holds]

/-- The calls that wait after an action waited before, apart from the one that started to. -/
theorem waiting_of_step {a : Action} (heffect : Effect concurrentTasks s a s') {j : ID}
    (hj : s'.phase j = .waiting) : s.phase j = .waiting ∨
      a = .register j ∧ .creating j ∈ s.waitingTasks ∧ concurrentTasks ≤ s.waitingTasks.length := by
  have hupdate : ∀ {f : ID → Phase} {i : ID} {q : Phase}, q ≠ .waiting → update f i q j = .waiting →
      f j = .waiting := by
    intro f i q hq hj
    by_cases hid : j = i
    · subst hid
      rw [update_self] at hj
      exact absurd hj hq
    · rwa [update_of_ne hid] at hj
  cases heffect with
  | enterCreating | enterRunning | registerStarting | registerCancelled | cancelWaiting | begin | finish =>
    exact Or.inl (hupdate (by simp) hj)
  | @registerWaiting id hphase hmem hfull =>
    by_cases hid : j = id
    · subst hid
      exact Or.inr ⟨rfl, hmem, hfull⟩
    · rw [setPhase_frame hid] at hj
      exact Or.inl hj
  | cancelCreating | cancelGone => exact Or.inl hj
  | @signal id hphase =>
    cases hc : (createTaskListOperations (removeEntry id s.waitingTasks)).2 with
    | none =>
      rw [hc] at hj
      exact Or.inl (hupdate (by simp) hj)
    | some c =>
      rw [hc] at hj
      exact Or.inl (hupdate (q := .finished) (by simp) (hupdate (q := .starting) (by simp) hj))

/-- While calls wait, all places are taken. -/
theorem Reachable.places_taken (h : Reachable concurrentTasks (WaitsForPlace concurrentTasks) s) {j : ID}
    (hj : s.phase j = .waiting) : concurrentTasks ≤ holders s := by
  induction h generalizing j with
  | init => cases hj
  | @step s s' a hreach hmeets hstep ih =>
    have hlisted := hreach.agree.1
    have heffect := hlisted.effect hstep
    have hbefore : concurrentTasks ≤ holders s := by
      rcases waiting_of_step heffect hj with hj | ⟨rfl, hmem, hfull⟩
      · exact ih hj
      · exact hmeets hmem hfull
    cases hlisted.places heffect with
    | enter _ h | register _ _ h | same h => omega
    | leave hnone h =>
      rcases waiting_of_step heffect hj with hj | ⟨hsignal, -⟩
      · exact absurd hj (hnone j)
      · cases hsignal

/-- The cancellation handler of a call that waits resumes it. -/
theorem Listed.cancel_waiting (h : Listed s) (hmem : .waiting id ∈ s.waitingTasks) :
    ∃ s', AsyncOperationQueue.step concurrentTasks s (.cancel id) = some s' ∧
      s'.resumed = (id, .cancellationError) :: s.resumed := by
  obtain ⟨hphase, hhandled⟩ := h.fits _ hmem
  have hentry : entryOf id s.waitingTasks = some (.waiting id) := entryOf_of_mem h.nodup hmem
  have henabled : (s.phase id = .creating ∨ s.phase id = .waiting) ∧ s.handled id = false :=
    ⟨Or.inr hphase, hhandled⟩
  simp only [AsyncOperationQueue.step, if_pos henabled, onCancel, hentry]
  exact ⟨_, rfl, rfl⟩

/-- **Nobody is stranded** in any run in which calls start to wait only while all places are taken; a continuation is
    resumed at most once, and with a `CancellationError` if its call is cancelled while it waits. -/
theorem strands_nobody (h : Reachable concurrentTasks (WaitsForPlace concurrentTasks) s) :
    (Settled s → (∃ id, .waiting id ∈ s.waitingTasks) → concurrentTasks ≤ running s) ∧
      (s.resumed.map Prod.fst).Nodup ∧
      ∀ id, .waiting id ∈ s.waitingTasks → ∃ s', step concurrentTasks s (.cancel id) = some s' ∧
        s'.resumed = (id, .cancellationError) :: s.resumed := by
  obtain ⟨hlisted, hlogged⟩ := h.agree
  refine ⟨fun hsettled hwaiting => ?_, hlogged.nodup, fun id hmem => hlisted.cancel_waiting hmem⟩
  obtain ⟨id, hmem⟩ := hwaiting
  rw [← holders_eq_running hsettled]
  exact h.places_taken (hlisted.fits _ hmem).1

/-! ## Runs in which it goes wrong -/

instance : Decidable (CountsUnlisted concurrentTasks s a) :=
  match a with
  | .enter => inferInstanceAs (Decidable (_ → _))
  | .register _ => inferInstanceAs (Decidable (_ → _ → _))
  | .cancel _ | .begin _ | .finish _ | .signal _ => inferInstanceAs (Decidable True)

/-- The actions one after the other; none where one does not meet the condition. -/
def exec (concurrentTasks : Nat) (meets : State → Action → Bool) : State → List Action → Option State
  | s, [] => some s
  | s, a :: actions =>
    if meets s a then (step concurrentTasks s a).bind fun s' => exec concurrentTasks meets s' actions else none

theorem reachable_of_exec {meets : State → Action → Bool} (hmeets : ∀ s a, meets s a = true → Meets s a)
    {actions : List Action} (hs : Reachable concurrentTasks Meets s)
    (h : exec concurrentTasks meets s actions = some s') :
    Reachable concurrentTasks Meets s' := by
  induction actions generalizing s with
  | nil =>
    cases h
    exact hs
  | cons a actions ih =>
    obtain ⟨hmeet, h⟩ := Option.ite_none_right_eq_some.mp h
    obtain ⟨s₁, hstep, hrest⟩ := Option.bind_eq_some_iff.mp h
    exact ih (hs.step (hmeets s a hmeet) hstep) hrest

/-- With a limit of two, the third call waits until the first one completes, and the fourth is let in when the third
    has completed. -/
theorem four_calls_within_limit : ∃ s, exec 2 (fun s a => decide (CountsUnlisted 2 s a)) {}
    [.enter, .begin 0, .enter, .begin 1, .enter, .register 2, .finish 0, .signal 0, .begin 2, .finish 2, .signal 2,
      .enter, .begin 3] = some s ∧ running s = 2 ∧ running s ≤ 2 := by
  have hrun : ((exec 2 (fun s a => decide (CountsUnlisted 2 s a)) {} [.enter, .begin 0, .enter, .begin 1, .enter,
      .register 2, .finish 0, .signal 0, .begin 2, .finish 2, .signal 2, .enter, .begin 3]).map running) = some 2 := by
    decide
  obtain ⟨s, hexec, hrunning⟩ := Option.map_eq_some_iff.mp hrun
  exact ⟨s, hexec, hrunning, runs_within_limit (reachable_of_exec (fun _ _ => of_decide_eq_true) .init hexec)⟩

/-- The second call waits, and is started when the first one completes; its entry is removed, so that a third call
    is let in beside it. -/
theorem runs_beyond_limit : ¬∀ concurrentTasks s, 1 ≤ concurrentTasks →
    Reachable concurrentTasks (fun _ _ => True) s → running s ≤ concurrentTasks := by
  intro h
  have hrun : ((exec 1 (fun _ _ => true) {} [.enter, .begin 0, .enter, .register 1, .finish 0, .signal 0, .begin 1,
      .enter, .begin 2]).map running) = some 2 := by decide
  obtain ⟨s, hexec, hrunning⟩ := Option.map_eq_some_iff.mp hrun
  have hle := h 1 s le_rfl (reachable_of_exec (fun _ _ _ => trivial) .init hexec)
  omega

theorem settled_of_calls (h : Listed s)
    (hall : ∀ i < s.calls, s.phase i ≠ .creating ∧ s.phase i ≠ .starting ∧ s.phase i ≠ .completing) : Settled s := by
  intro i
  rcases Nat.lt_or_ge i s.calls with hi | hi
  · exact hall i hi
  · rw [h.absent i hi]
    simp

/-- The first call, whose `waitIfNeeded` has returned. -/
def firstCall : State where
  waitingTasks := [.running 0]
  calls := 1
  phase := Function.update (Function.update (fun _ => .absent) 0 .starting) 0 .running

/-- A second call between its two sections. -/
def secondCall : State where
  waitingTasks := [.running 0, .creating 1]
  calls := 2
  phase := Function.update firstCall.phase 1 .creating

/-- With a limit of one, a second call waits while the first one runs. -/
theorem second_call_waits :
    1 ≤ running { secondCall with waitingTasks := [.running 0, .waiting 1],
                                  phase := Function.update secondCall.phase 1 .waiting } := by
  have hsecond : Reachable 1 (WaitsForPlace 1) secondCall :=
    .step (.step (.step .init (a := .enter) trivial rfl) (a := .begin 0) trivial rfl) (a := .enter) trivial rfl
  have hreach : Reachable 1 (WaitsForPlace 1) { secondCall with
      waitingTasks := [.running 0, .waiting 1], phase := update secondCall.phase 1 .waiting } :=
    .step hsecond (a := .register 1) (fun _ _ => by decide) rfl
  exact (strands_nobody hreach).1 (settled_of_calls hreach.agree.1 (by decide)) ⟨1, by decide⟩

/-- The second call runs its first section, then the first call completes, and the second one counts itself in its
    second section: it waits while nothing runs. -/
theorem second_call_stranded : ¬∀ concurrentTasks s, 1 ≤ concurrentTasks →
    Reachable concurrentTasks (fun _ _ => True) s → Settled s → (∃ id, .waiting id ∈ s.waitingTasks) →
      concurrentTasks ≤ running s := by
  intro h
  have hrun : ((exec 1 (fun _ _ => true) {} [.enter, .begin 0, .enter, .finish 0, .signal 0, .register 1]).map fun s =>
      decide (running s = 0 ∧ .waiting 1 ∈ s.waitingTasks ∧
        ∀ i < s.calls, s.phase i ≠ .creating ∧ s.phase i ≠ .starting ∧ s.phase i ≠ .completing)) = some true := by
    decide
  obtain ⟨s, hexec, hstate⟩ := Option.map_eq_some_iff.mp hrun
  obtain ⟨hnone, hwaiting, hall⟩ := of_decide_eq_true hstate
  have hreach : Reachable 1 (fun _ _ => True) s := reachable_of_exec (fun _ _ _ => trivial) .init hexec
  have hle := h 1 s le_rfl hreach (settled_of_calls hreach.agree.1 hall) ⟨1, hwaiting⟩
  omega

end AsyncOperationQueue

end Builra
