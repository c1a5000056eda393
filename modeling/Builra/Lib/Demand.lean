import Mathlib.Data.Set.Finite.Lattice

namespace Builra

open List

/-!
# `Lib.Demand` — tasks that request values

The value of a key is computed by a task. A task starts with some requests for the values of other keys, may
request more each time it is given one, and completes when none is outstanding. Nothing is said about the order
in which requests are answered.

* `Run` — the states of a task and its outstanding requests, for given answers;
* `Evaluates` — the values that keys have when every answer is such a value itself;
* `Accepts` — no answer makes the task fail;
* `Requests` — the dynamic dependencies, and what it takes for them to be acyclic and finite.
-/

namespace Demand

/-- Tasks over explicit states. A task fails where the result is none. -/
structure Tasks (Key Id Value State : Type) where
  start : Key → State × List (Id × Key)
  provideValue : State → Id → Value → Option (State × List (Id × Key))
  inputsAvailable : State → Option Value

variable {Key Id Value State : Type} (tasks : Tasks Key Id Value State)

/-- The task of `key` can be in this state with these requests outstanding. -/
inductive Run (answers : Key → Value → Prop) (key : Key) : State → List (Id × Key) → Prop where
  | start : Run answers key (tasks.start key).1 (tasks.start key).2
  | provide {s s' before after new i k w} :
      Run answers key s (before ++ (i, k) :: after) → answers k w →
      tasks.provideValue s i w = some (s', new) → Run answers key s' (before ++ after ++ new)

variable (answers : Key → Value → Prop)

/-- The task of `key` can complete with the value `v`. -/
def Completes (key : Key) (v : Value) : Prop :=
  ∃ s, Run tasks answers key s [] ∧ tasks.inputsAvailable s = some v

/-- The values of keys whose requests are nested less than `n` deep. -/
def EvaluatesIn : Nat → Key → Value → Prop
  | 0 => fun _ _ => False
  | n + 1 => Completes tasks (EvaluatesIn n)

def Evaluates (key : Key) (v : Value) : Prop := ∃ n, EvaluatesIn tasks n key v

/-- Whatever the task is given, it does not fail, and it completes when it was given everything. -/
def Accepts (key : Key) : Prop :=
  ∀ s pending, Run tasks answers key s pending →
    (∀ r ∈ pending, ∀ w, answers r.2 w → ∃ next, tasks.provideValue s r.1 w = some next) ∧
      (pending = [] → ∃ v, tasks.inputsAvailable s = some v)

/-- The task of `k` requests `k'` at some time, when it is given the values that keys have. -/
def Requests (k k' : Key) : Prop := ∃ s pending i, Run tasks (Evaluates tasks) k s pending ∧ (i, k') ∈ pending

variable {tasks} {answers answers' : Key → Value → Prop} {key : Key}

/-! ## Runs -/

variable {pending : List (Id × Key)} {s : State} {v : Value}

theorem Run.mono (h : ∀ k v, answers k v → answers' k v) (hrun : Run tasks answers key s pending) :
    Run tasks answers' key s pending := by
  induction hrun with
  | start => exact .start
  | provide _ hanswer hprovide ih => exact .provide ih (h _ _ hanswer) hprovide

variable (Inv : State → List (Id × Key) → Prop)

/-- **The invariant rule**: what holds at the start and is kept by every answer holds throughout a run. -/
theorem Run.invariant (hstart : Inv (tasks.start key).1 (tasks.start key).2)
    (hstep : ∀ s before after i k w s' new, Inv s (before ++ (i, k) :: after) → answers k w →
      tasks.provideValue s i w = some (s', new) → Inv s' (before ++ after ++ new))
    (hrun : Run tasks answers key s pending) : Inv s pending := by
  induction hrun with
  | start => exact hstart
  | provide _ hanswer hprovide ih => exact hstep _ _ _ _ _ _ _ _ ih hanswer hprovide

theorem Completes.mono (h : ∀ k v, answers k v → answers' k v) (hc : Completes tasks answers key v) :
    Completes tasks answers' key v := by
  obtain ⟨s, hrun, hv⟩ := hc
  exact ⟨s, hrun.mono h, hv⟩

/-- A task completes if its first outstanding request can always be answered and there are fewer and fewer steps
    to go. -/
theorem exists_completes (measure : State → Nat)
    (hstart : Inv (tasks.start key).1 (tasks.start key).2)
    (hstep : ∀ s i k rest, Inv s ((i, k) :: rest) → ∃ w, answers k w ∧ ∃ s' new,
      tasks.provideValue s i w = some (s', new) ∧ Inv s' (rest ++ new) ∧ measure s' < measure s)
    (hend : ∀ s, Inv s [] → ∃ v, tasks.inputsAvailable s = some v) : ∃ v, Completes tasks answers key v := by
  -- from any state of a run, by the steps to go
  have hgo : ∀ n s pending, measure s = n → Run tasks answers key s pending → Inv s pending →
      ∃ v, Completes tasks answers key v := by
    intro n
    induction n using Nat.strong_induction_on with
    | _ n ih =>
      intro s pending hn hrun hinv
      cases pending with
      | nil =>
        obtain ⟨v, hv⟩ := hend s hinv
        exact ⟨v, s, hrun, hv⟩
      | cons r rest =>
        obtain ⟨w, hw, s', new, hprovide, hinv', hlt⟩ := hstep s r.1 r.2 rest hinv
        have hrun' : Run tasks answers key s' ([] ++ rest ++ new) := .provide hrun hw hprovide
        exact ih (measure s') (hn ▸ hlt) s' (rest ++ new) rfl hrun' hinv'
  exact hgo _ _ _ rfl .start hstart

/-! ## Values of keys -/

theorem evaluatesIn_mono {n m : Nat} (h : n ≤ m) (hv : EvaluatesIn tasks n key v) :
    EvaluatesIn tasks m key v := by
  induction n generalizing m key v with
  | zero => exact absurd hv id
  | succ n ih =>
    obtain ⟨m, rfl⟩ : ∃ m', m = m' + 1 := ⟨m - 1, by omega⟩
    exact Completes.mono (fun k w hw => ih (by omega) hw) hv

/-- The answers of one run are nested to a bounded depth. -/
theorem Run.bounded (hrun : Run tasks (Evaluates tasks) key s pending) :
    ∃ n, Run tasks (EvaluatesIn tasks n) key s pending := by
  induction hrun with
  | start => exact ⟨0, .start⟩
  | provide _ hanswer hprovide ih =>
    obtain ⟨n, hn⟩ := ih
    obtain ⟨m, hm⟩ := hanswer
    have hrun := hn.mono fun _ _ h => evaluatesIn_mono (Nat.le_max_left n m) h
    exact ⟨max n m, .provide hrun (evaluatesIn_mono (Nat.le_max_right n m) hm) hprovide⟩

/-- A key has the values with which its task completes when it is given the values of other keys. -/
theorem evaluates_iff : Evaluates tasks key v ↔ Completes tasks (Evaluates tasks) key v := by
  constructor
  · rintro ⟨n, hv⟩
    cases n with
    | zero => exact absurd hv id
    | succ n => exact Completes.mono (fun k w hw => ⟨n, hw⟩) hv
  · rintro ⟨s, hrun, hv⟩
    obtain ⟨n, hn⟩ := hrun.bounded
    exact ⟨n + 1, s, hn, hv⟩

/-- **Induction on how values come about.** -/
theorem Evaluates.induct {P : Key → Value → Prop}
    (h : ∀ key v, Completes tasks (fun k w => Evaluates tasks k w ∧ P k w) key v → P key v)
    (hv : Evaluates tasks key v) : P key v := by
  obtain ⟨n, hv⟩ := hv
  induction n generalizing key v with
  | zero => exact absurd hv id
  | succ n ih => exact h key v (Completes.mono (fun k w hw => ⟨⟨n, hw⟩, ih hw⟩) hv)

/-- **No value from a cycle**: keys whose tasks complete only after an answer for one of them have no values. -/
theorem not_evaluates_of_cycle {C : Key → Prop}
    (hC : ∀ k answers v, C k → Completes tasks answers k v → ∃ k' w, C k' ∧ answers k' w) (hkey : C key)
    (v : Value) : ¬Evaluates tasks key v := by
  intro hv
  refine Evaluates.induct (P := fun k _ => ¬C k) ?_ hv hkey
  intro k w hcompletes hk
  obtain ⟨k', w', hk', -, hnot⟩ := hC k _ w hk hcompletes
  exact hnot hk'

/-! ## Tasks with few requests -/

/-- A task without requests. -/
theorem completes_of_no_request (hstart : (tasks.start key).2 = []) :
    Completes tasks answers key v ↔ tasks.inputsAvailable (tasks.start key).1 = some v := by
  constructor
  · rintro ⟨s, hrun, hv⟩
    have hs : s = (tasks.start key).1 := by
      refine (Run.invariant (fun s pending => s = (tasks.start key).1 ∧ pending = []) ⟨rfl, hstart⟩ ?_ hrun).1
      rintro s before after i k w s' new ⟨-, hpending⟩
      simp at hpending
    exact hs ▸ hv
  · intro hv
    have hrun : Run tasks answers key (tasks.start key).1 (tasks.start key).2 := .start
    exact ⟨_, hstart ▸ hrun, hv⟩

/-- The states of a task that makes one request and no other. -/
theorem run_of_one_request {i : Id} {k : Key} (hstart : (tasks.start key).2 = [(i, k)])
    (hquiet : ∀ w s' new, tasks.provideValue (tasks.start key).1 i w = some (s', new) → new = [])
    (hrun : Run tasks answers key s pending) :
    (s = (tasks.start key).1 ∧ pending = [(i, k)]) ∨
      pending = [] ∧ ∃ w, answers k w ∧ tasks.provideValue (tasks.start key).1 i w = some (s, []) := by
  refine hrun.invariant (fun s pending => (s = (tasks.start key).1 ∧ pending = [(i, k)]) ∨
    pending = [] ∧ ∃ w, answers k w ∧ tasks.provideValue (tasks.start key).1 i w = some (s, []))
    (Or.inl ⟨rfl, hstart⟩) ?_
  rintro s before after i' k' w s' new (⟨rfl, hpending⟩ | ⟨hpending, -⟩) hw hprovide
  · obtain ⟨rfl, hr, rfl⟩ : before = [] ∧ (i', k') = (i, k) ∧ after = [] := by
      cases before with
      | nil => simpa using hpending
      | cons r before => simp at hpending
    cases hr
    obtain rfl := hquiet w s' new hprovide
    exact Or.inr ⟨rfl, w, hw, hprovide⟩
  · simp at hpending

/-- What a task with one request completes with. -/
theorem completes_of_one_request {i : Id} {k : Key} (hstart : (tasks.start key).2 = [(i, k)])
    (hquiet : ∀ w s' new, tasks.provideValue (tasks.start key).1 i w = some (s', new) → new = []) :
    Completes tasks answers key v ↔ ∃ w s', answers k w ∧
      tasks.provideValue (tasks.start key).1 i w = some (s', []) ∧ tasks.inputsAvailable s' = some v := by
  constructor
  · rintro ⟨s, hrun, hv⟩
    rcases run_of_one_request hstart hquiet hrun with ⟨-, hnil⟩ | ⟨-, w, hw, hprovide⟩
    · cases hnil
    · exact ⟨w, s, hw, hprovide, hv⟩
  · rintro ⟨w, s', hw, hprovide, hv⟩
    have hrun : Run tasks answers key (tasks.start key).1 ([] ++ (i, k) :: []) := by
      rw [nil_append, ← hstart]
      exact .start
    exact ⟨s', .provide hrun hw hprovide, hv⟩

/-- A task with one request accepts the answers after which it completes. -/
theorem accepts_of_one_request {i : Id} {k : Key} (hstart : (tasks.start key).2 = [(i, k)])
    (hquiet : ∀ w s' new, tasks.provideValue (tasks.start key).1 i w = some (s', new) → new = []) :
    Accepts tasks answers key ↔ ∀ w, answers k w → ∃ s' v,
      tasks.provideValue (tasks.start key).1 i w = some (s', []) ∧ tasks.inputsAvailable s' = some v := by
  constructor
  · intro haccepts w hw
    have hrun : Run tasks answers key (tasks.start key).1 ([] ++ (i, k) :: []) := by
      rw [nil_append, ← hstart]
      exact .start
    obtain ⟨⟨s', new⟩, hprovide⟩ := (haccepts _ _ hrun).1 (i, k) (by simp) w hw
    obtain rfl := hquiet w s' new hprovide
    obtain ⟨v, hv⟩ := (haccepts _ _ (hrun.provide hw hprovide)).2 rfl
    exact ⟨s', v, hprovide, hv⟩
  · intro hanswers s pending hrun
    rcases run_of_one_request hstart hquiet hrun with ⟨rfl, rfl⟩ | ⟨rfl, w, hw, hprovide⟩
    · refine ⟨fun r hr w hw => ?_, fun hnil => (by cases hnil)⟩
      rw [mem_singleton] at hr
      subst hr
      obtain ⟨s', -, hprovide, -⟩ := hanswers w hw
      exact ⟨_, hprovide⟩
    · refine ⟨fun r hr => (by cases hr), fun _ => ?_⟩
      obtain ⟨s', v, hprovide', hv⟩ := hanswers w hw
      rw [hprovide] at hprovide'
      cases hprovide'
      exact ⟨v, hv⟩

/-! ## Dependencies -/

/-- What `k` requests, directly or through other keys. -/
def reachable (tasks : Tasks Key Id Value State) (k : Key) : Set Key :=
  {k' | Relation.ReflTransGen (Requests tasks) k k'}

/-- The requests from `k` on are acyclic and finite. -/
structure WellFoundedFrom (tasks : Tasks Key Id Value State) (k : Key) : Prop where
  acyclic : ∀ k' ∈ reachable tasks k, ¬Relation.TransGen (Requests tasks) k' k'
  finite : (reachable tasks k).Finite

theorem Requests.of_start {k k' : Key} {i : Id} (h : (i, k') ∈ (tasks.start k).2) : Requests tasks k k' :=
  ⟨_, _, i, .start, h⟩

/-- A task that requests nothing more when it is given a value has the requests it starts with. -/
theorem Requests.mem_start (Inv : State → Prop) (hstart : Inv (tasks.start key).1)
    (hquiet : ∀ s i w s' new, Inv s → tasks.provideValue s i w = some (s', new) → Inv s' ∧ new = [])
    {k' : Key} (h : Requests tasks key k') : ∃ i, (i, k') ∈ (tasks.start key).2 := by
  obtain ⟨s, pending, i, hrun, hmem⟩ := h
  refine ⟨i, (hrun.invariant (fun s pending => Inv s ∧ pending ⊆ (tasks.start key).2)
    ⟨hstart, List.Subset.refl _⟩ ?_).2 hmem⟩
  intro s before after i k w s' new hinv _ hprovide
  obtain ⟨hs', rfl⟩ := hquiet s i w s' new hinv.1 hprovide
  refine ⟨hs', fun r hr => hinv.2 ?_⟩
  rw [append_nil, mem_append] at hr
  rw [mem_append, mem_cons]
  exact hr.imp_right Or.inr

/-- **The rank rule**: requests that stay among good keys, go down in rank and are finitely many at each key. -/
theorem wellFoundedFrom_of_rank {α : Type*} [Preorder α] [WellFoundedLT α] (Good : Key → Prop) (rank : Key → α)
    (hstep : ∀ k k', Good k → Requests tasks k k' → Good k' ∧ rank k' < rank k)
    (hfinite : ∀ k, Good k → {k' | Requests tasks k k'}.Finite) (hkey : Good key) :
    WellFoundedFrom tasks key := by
  have hgood : ∀ {k k'}, Relation.ReflTransGen (Requests tasks) k k' → Good k → Good k' := by
    intro k k' hreach hk
    induction hreach with
    | refl => exact hk
    | tail _ hreq ih => exact (hstep _ _ ih hreq).1
  have hlt : ∀ {k k'}, Relation.TransGen (Requests tasks) k k' → Good k → rank k' < rank k := by
    intro k k' hreach hk
    induction hreach with
    | single hreq => exact (hstep _ _ hk hreq).2
    | tail hreach hreq ih => exact (hstep _ _ (hgood hreach.to_reflTransGen hk) hreq).2.trans ih
  refine ⟨fun k' hreach hcycle => lt_irrefl _ (hlt hcycle (hgood hreach hkey)), ?_⟩
  -- what a key reaches is the key and what its requests reach
  have hall : ∀ x k, rank k = x → Good k → (reachable tasks k).Finite := by
    intro x
    induction x using WellFoundedLT.induction with
    | _ x ih =>
      intro k hx hk
      have hsub : reachable tasks k ⊆ {k} ∪ ⋃ k' ∈ {k' | Requests tasks k k'}, reachable tasks k' := by
        intro k'' hreach
        rcases Relation.ReflTransGen.cases_head hreach with rfl | ⟨k', hreq, hreach'⟩
        · exact Or.inl rfl
        · exact Or.inr (Set.mem_biUnion hreq hreach')
      refine Set.Finite.subset ((Set.finite_singleton k).union ((hfinite k hk).biUnion ?_)) hsub
      intro k' hreq
      obtain ⟨hk', hrank⟩ := hstep k k' hk hreq
      exact ih (rank k') (hx ▸ hrank) k' rfl hk'
  exact hall _ key rfl hkey

end Demand

end Builra
