import Builra.BuildSystem.DirectoryTasks
import Mathlib.Data.List.Permutation

namespace Builra

open List Option FileSystem

/-!
# `BuildSystem.DirectoryRuns` — how the directory tasks run

What each task can complete with, in terms of the values it was given. A signature task has a slot for each child
and is given the values of the slots in any order; `SignatureTask.outstanding` says which requests are open in a
state, and `run_signature` that these are the open ones in every run.
-/

open FileSystem (Name Path slash)
open Demand

namespace DirectoryTasks

variable {S : Type} {env : Env S} {fs : FileSystem} {answers : Key → Value S → Prop}

/-! ## The slots of a signature task -/

namespace SignatureTask

variable (kind : SignatureKind) (path : Path) (filters : List Name) (n : Nat)

/-- The request that is open for the child in slot `i` of `n`. -/
def slotRequests (i : Nat) (child : SubpathInfo S) : List Request :=
  match child.value with
  | none => [(1 + i, .node (FileSystem.append path child.filename))]
  | some w =>
    if w.isExistingDirectory && child.directorySignatureValue.isNone then
      [(1 + n + i, signatureKey kind (FileSystem.append path child.filename) filters)]
    else []

/-- The requests that are open for the children from slot `i` on. -/
def slotsRequests : Nat → List (SubpathInfo S) → List Request
  | _, [] => []
  | i, child :: rest => slotRequests kind path filters n i child ++ slotsRequests (i + 1) rest

/-- The requests that are open in a state of the task. -/
def outstanding (task : SignatureTask S) : List Request :=
  match task.directoryValue with
  | none => [(0, contentsKey path filters)]
  | some _ => slotsRequests kind path filters task.childResults.length 0 task.childResults

/-- What a child holds was given for it. -/
structure SlotSound (answers : Key → Value S → Prop) (child : SubpathInfo S) : Prop where
  value : ∀ w, child.value = some w → answers (.node (FileSystem.append path child.filename)) w
  signature : ∀ x, child.directorySignatureValue = some x →
    answers (signatureKey kind (FileSystem.append path child.filename) filters) x ∧
      ∃ w, child.value = some w ∧ w.isExistingDirectory = true

/-- What the task holds was given to it. -/
structure Sound (answers : Key → Value S → Prop) (task : SignatureTask S) : Prop where
  kind_eq : task.kind = kind
  path_eq : task.path = path
  filters_eq : task.filters = filters
  children_nil : task.directoryValue = none → task.childResults = []
  contents : ∀ v, task.directoryValue = some v → answers (contentsKey path filters) v ∧
    filenamesOf kind filters v = some (task.childResults.map SubpathInfo.filename)
  slot : ∀ child ∈ task.childResults, SlotSound kind path filters answers child

variable {kind path filters n}

theorem slotsRequests_append (i : Nat) (l l' : List (SubpathInfo S)) :
    slotsRequests kind path filters n i (l ++ l') =
      slotsRequests kind path filters n i l ++ slotsRequests kind path filters n (i + l.length) l' := by
  induction l generalizing i with
  | nil => simp [slotsRequests]
  | cons child l ih =>
    rw [cons_append, slotsRequests, slotsRequests, ih, append_assoc]
    have hi : i + 1 + l.length = i + (child :: l).length := by
      rw [length_cons]
      omega
    rw [hi]

/-- An open request belongs to a slot. -/
theorem mem_slotsRequests {i : Nat} {l : List (SubpathInfo S)} {r : Request}
    (h : r ∈ slotsRequests kind path filters n i l) : ∃ before child after, l = before ++ child :: after ∧
      r ∈ slotRequests kind path filters n (i + before.length) child := by
  induction l generalizing i with
  | nil => simp [slotsRequests] at h
  | cons child l ih =>
    rw [slotsRequests, mem_append] at h
    rcases h with h | h
    · exact ⟨[], child, l, rfl, h⟩
    · obtain ⟨before, child', after, rfl, hr⟩ := ih h
      refine ⟨child :: before, child', after, rfl, ?_⟩
      have hi : i + (child :: before).length = i + 1 + before.length := by
        rw [length_cons]
        omega
      rw [hi]
      exact hr

/-- The slots that were just made wait for their nodes. -/
theorem slotsRequests_fresh (i : Nat) (filenames : List Name) :
    slotsRequests kind path filters n i (filenames.map fun filename => ({ filename := filename } : SubpathInfo S)) =
      filenames.mapIdx fun j filename => (1 + (i + j), .node (FileSystem.append path filename)) := by
  induction filenames generalizing i with
  | nil => rfl
  | cons x filenames ih =>
    have hshift : ∀ j, i + 1 + j = i + (j + 1) := fun j => by omega
    rw [map_cons, slotsRequests, ih, mapIdx_cons]
    simp only [hshift]
    rfl

/-- The three answers that a signature task waits for, with what `provideValue` does with them. -/
inductive Pending (task : SignatureTask S) (i : Nat) (k : Key) : Prop where
  | contents (hnone : task.directoryValue = none) (hi : i = 0) (hk : k = contentsKey task.path task.filters)
      (hprovide : ∀ v, task.provideValue i v = (filenamesOf task.kind task.filters v).map fun filenames =>
        ({ task with
            directoryValue := some v
            childResults := filenames.map fun filename => { filename := filename } },
          task.childRequests filenames))
  | child (before after : List (SubpathInfo S)) (child : SubpathInfo S)
      (hsome : task.directoryValue.isSome = true) (hchildren : task.childResults = before ++ child :: after)
      (hvalue : child.value = none) (hi : i = 1 + before.length)
      (hk : k = .node (FileSystem.append task.path child.filename))
      (hprovide : ∀ w, task.provideValue i w =
        some ({ task with childResults := before ++ { child with value := some w } :: after },
          if w.isExistingDirectory then
            [(1 + task.childResults.length + before.length,
              signatureKey task.kind (FileSystem.append task.path child.filename) task.filters)]
          else []))
  | signature (before after : List (SubpathInfo S)) (child : SubpathInfo S) (w : Value S)
      (hsome : task.directoryValue.isSome = true) (hchildren : task.childResults = before ++ child :: after)
      (hvalue : child.value = some w) (hdirectory : w.isExistingDirectory = true)
      (hnone : child.directorySignatureValue = none) (hi : i = 1 + task.childResults.length + before.length)
      (hk : k = signatureKey task.kind (FileSystem.append task.path child.filename) task.filters)
      (hprovide : ∀ x, task.provideValue i x =
        some ({ task with childResults := before ++ { child with directorySignatureValue := some x } :: after }, []))

theorem getElem?_middle {α : Type} (before after : List α) (a : α) :
    (before ++ a :: after)[before.length]? = some a := by
  rw [List.getElem?_append_right (le_refl _)]
  simp

theorem set_middle {α : Type} (before after : List α) (a b : α) :
    (before ++ a :: after).set before.length b = before ++ b :: after := by
  rw [set_append_right _ _ (le_refl _)]
  simp

variable {task : SignatureTask S} {child : SubpathInfo S}

/-- **What one answer does.** -/
theorem pending_of_mem (hsound : Sound kind path filters answers task) {i : Nat} {k : Key}
    (hr : (i, k) ∈ outstanding kind path filters task) : Pending task i k := by
  obtain ⟨rfl, rfl, rfl, hnil, hcontents, hslot⟩ := hsound
  cases hv : task.directoryValue with
  | none =>
    simp only [outstanding, hv, mem_singleton, Prod.mk.injEq] at hr
    obtain ⟨rfl, rfl⟩ := hr
    refine .contents hv rfl rfl fun v => ?_
    simp only [provideValue, if_true, hnil hv, nil_append]
    cases filenamesOf task.kind task.filters v with
    | none => rfl
    | some filenames => rfl
  | some v =>
    simp only [outstanding, hv] at hr
    obtain ⟨before, child, after, hchildren, hr⟩ := mem_slotsRequests hr
    rw [Nat.zero_add] at hr
    have hlt : before.length < task.childResults.length := by simp [hchildren]
    have hget : task.childResults[before.length]? = some child := by
      rw [hchildren]
      exact getElem?_middle before after child
    have hset : ∀ c, task.childResults.set before.length c = before ++ c :: after := by
      intro c
      rw [hchildren]
      exact set_middle before after child c
    unfold slotRequests at hr
    cases hvalue : child.value with
    | none =>
      simp only [hvalue, mem_singleton, Prod.mk.injEq] at hr
      obtain ⟨rfl, rfl⟩ := hr
      refine .child before after child (by simp [hv]) hchildren hvalue rfl rfl fun w => ?_
      have hne : ¬1 + before.length = 0 := by omega
      have hin : 1 + before.length < 1 + task.childResults.length := by omega
      have hindex : 1 + before.length - 1 = before.length := by omega
      simp only [provideValue, if_neg hne, if_pos hin, hindex, hget, hset]
      rfl
    | some w =>
      simp only [hvalue] at hr
      split at hr
      · rename_i hopen
        simp only [Bool.and_eq_true, isNone_iff_eq_none] at hopen
        simp only [mem_singleton, Prod.mk.injEq] at hr
        obtain ⟨rfl, rfl⟩ := hr
        refine .signature before after child w (by simp [hv]) hchildren hvalue hopen.1 hopen.2 rfl rfl fun x => ?_
        have hne : ¬1 + task.childResults.length + before.length = 0 := by omega
        have hout : ¬1 + task.childResults.length + before.length < 1 + task.childResults.length := by omega
        have hindex : 1 + task.childResults.length + before.length - 1 - task.childResults.length =
            before.length := by omega
        simp only [provideValue, if_neg hne, if_neg hout, hindex, hget, hset]
      · cases hr

/-- Replacing an open request by new ones. -/
theorem perm_replace {α : Type} {before after front back new : List α} {r : α}
    (h : (before ++ r :: after).Perm (front ++ [r] ++ back)) :
    (before ++ after ++ new).Perm (front ++ new ++ back) := by
  have hrest : (before ++ after).Perm (front ++ back) := by
    rw [append_assoc, singleton_append] at h
    exact (perm_middle.symm.trans (h.trans perm_middle)).cons_inv
  calc (before ++ after ++ new).Perm (front ++ back ++ new) := hrest.append_right new
    _ = front ++ (back ++ new) := append_assoc _ _ _
    List.Perm _ (front ++ (new ++ back)) := (perm_append_comm).append_left front
    _ = front ++ new ++ back := (append_assoc _ _ _).symm

theorem outstanding_middle (hsome : task.directoryValue.isSome = true) {before after : List (SubpathInfo S)}
    (hchildren : task.childResults = before ++ child :: after) : outstanding kind path filters task =
      slotsRequests kind path filters task.childResults.length 0 before ++
        slotRequests kind path filters task.childResults.length before.length child ++
          slotsRequests kind path filters task.childResults.length (before.length + 1) after := by
  obtain ⟨v, hv⟩ := isSome_iff_exists.mp hsome
  have hall : outstanding kind path filters task =
      slotsRequests kind path filters task.childResults.length 0 task.childResults := by
    simp only [outstanding, hv]
  rw [hall]
  generalize task.childResults.length = m
  rw [hchildren, slotsRequests_append, Nat.zero_add, slotsRequests, append_assoc]

/-- Changing one slot keeps the task sound if the slot is. -/
theorem Sound.set_slot (hsound : Sound kind path filters answers task) (hsome : task.directoryValue.isSome = true)
    {front back : List (SubpathInfo S)} (child' : SubpathInfo S)
    (hchildren : task.childResults = front ++ child :: back) (hname : child'.filename = child.filename)
    (hslot : SlotSound kind path filters answers child') :
    Sound kind path filters answers { task with childResults := front ++ child' :: back } := by
  refine ⟨hsound.kind_eq, hsound.path_eq, hsound.filters_eq, fun hnone => ?_, fun v hv => ?_, fun c hc => ?_⟩
  · rw [show task.directoryValue = none from hnone] at hsome
    cases hsome
  · obtain ⟨hanswer, hnames⟩ := hsound.contents v hv
    refine ⟨hanswer, ?_⟩
    rw [hnames, hchildren]
    simp [hname]
  · have hc' : c ∈ front ++ child' :: back := hc
    rw [mem_append, mem_cons] at hc'
    rcases hc' with hc' | rfl | hc'
    · exact hsound.slot c (by simp [hchildren, hc'])
    · exact hslot
    · exact hsound.slot c (by simp [hchildren, hc'])

/-- The open requests after the one of a slot was answered. -/
theorem outstanding_set_slot (hsome : task.directoryValue.isSome = true) {front back : List (SubpathInfo S)}
    (child' : SubpathInfo S) (hchildren : task.childResults = front ++ child :: back) {before after : List Request}
    {r : Request} (hperm : (before ++ r :: after).Perm (outstanding kind path filters task))
    (hr : slotRequests kind path filters task.childResults.length front.length child = [r]) :
    (before ++ after ++ slotRequests kind path filters task.childResults.length front.length child').Perm
      (outstanding kind path filters { task with childResults := front ++ child' :: back }) := by
  have hlength : (front ++ child' :: back).length = task.childResults.length := by
    rw [hchildren, length_append, length_append, length_cons, length_cons]
  have hafter : outstanding kind path filters { task with childResults := front ++ child' :: back } =
      slotsRequests kind path filters task.childResults.length 0 front ++
        slotRequests kind path filters task.childResults.length front.length child' ++
          slotsRequests kind path filters task.childResults.length (front.length + 1) back := by
    have hsome' : ({ task with childResults := front ++ child' :: back } : SignatureTask S).directoryValue.isSome
        = true := hsome
    rw [← hlength]
    exact outstanding_middle hsome' rfl
  rw [outstanding_middle hsome hchildren, hr] at hperm
  rw [hafter]
  exact perm_replace hperm

/-- **An answer keeps the task sound**, and the open requests are the ones that the state says. -/
theorem Sound.step {task' : SignatureTask S} (hsound : Sound kind path filters answers task)
    {before after new : List Request} {i : Nat} {k : Key} {w : Value S}
    (hperm : (before ++ (i, k) :: after).Perm (outstanding kind path filters task)) (hw : answers k w)
    (hstep : task.provideValue i w = some (task', new)) :
    Sound kind path filters answers task' ∧
      (before ++ after ++ new).Perm (outstanding kind path filters task') := by
  obtain rfl := hsound.kind_eq
  obtain rfl := hsound.path_eq
  obtain rfl := hsound.filters_eq
  have hmem : (i, k) ∈ outstanding task.kind task.path task.filters task := hperm.mem_iff.mp (by simp)
  cases pending_of_mem hsound hmem with
  | contents hnone hi hk hprovide =>
    rw [hprovide] at hstep
    obtain ⟨filenames, hnames, hnext⟩ := map_eq_some_iff.mp hstep
    cases hnext
    refine ⟨⟨rfl, rfl, rfl, fun h => (by cases h), fun v hv => ?_, fun child hchild => ?_⟩, ?_⟩
    · cases hv
      refine ⟨hk ▸ hw, ?_⟩
      rw [hnames]
      simp [Function.comp_def]
    · obtain ⟨x, -, rfl⟩ := mem_map.mp hchild
      exact ⟨fun _ h => (by cases h), fun _ h => (by cases h)⟩
    · -- the only request was for the contents
      have hlength := hperm.length_eq
      simp only [outstanding, hnone, length_append, length_cons, length_nil] at hlength
      obtain ⟨rfl, rfl⟩ : before = [] ∧ after = [] :=
        ⟨eq_nil_of_length_eq_zero (by omega), eq_nil_of_length_eq_zero (by omega)⟩
      apply List.Perm.of_eq
      simp only [outstanding, slotsRequests_fresh, Nat.zero_add]
      rfl
  | child front back child hsome hchildren hvalue hi hk hprovide =>
    have hnone : child.directorySignatureValue = none := by
      cases hsig : child.directorySignatureValue with
      | none => rfl
      | some x =>
        obtain ⟨-, w', hw', -⟩ := (hsound.slot child (by simp [hchildren])).signature x hsig
        rw [hvalue] at hw'
        cases hw'
    have hslot : SlotSound task.kind task.path task.filters answers { child with value := some w } := by
      refine ⟨fun w' h => ?_, fun x h => ?_⟩
      · cases h
        exact hk ▸ hw
      · rw [show child.directorySignatureValue = some x from h] at hnone
        cases hnone
    have hr : slotRequests task.kind task.path task.filters task.childResults.length front.length child =
        [(i, k)] := by
      simp only [slotRequests, hvalue, hi, hk]
    have hset := hsound.set_slot hsome { child with value := some w } hchildren rfl hslot
    have hopen := outstanding_set_slot hsome { child with value := some w } hchildren hperm hr
    have hnew : slotRequests task.kind task.path task.filters task.childResults.length front.length
        { child with value := some w } = if w.isExistingDirectory then
          [(1 + task.childResults.length + front.length,
            signatureKey task.kind (append task.path child.filename) task.filters)]
        else [] := by
      simp only [slotRequests, hnone, isNone_none, Bool.and_true]
    rw [hnew] at hopen
    rw [hprovide] at hstep
    cases hstep
    exact ⟨hset, hopen⟩
  | signature front back child w' hsome hchildren hvalue hdirectory hnone hi hk hprovide =>
    have hslot : SlotSound task.kind task.path task.filters answers
        { child with directorySignatureValue := some w } := by
      refine ⟨(hsound.slot child (by simp [hchildren])).value, fun x h => ?_⟩
      cases h
      exact ⟨hk ▸ hw, w', hvalue, hdirectory⟩
    have hr : slotRequests task.kind task.path task.filters task.childResults.length front.length child =
        [(i, k)] := by
      simp only [slotRequests, hvalue, hdirectory, hnone, hi, hk, isNone_none, Bool.and_true, if_true]
    have hset := hsound.set_slot hsome { child with directorySignatureValue := some w } hchildren rfl hslot
    have hopen := outstanding_set_slot hsome { child with directorySignatureValue := some w } hchildren hperm hr
    have hnew : slotRequests task.kind task.path task.filters task.childResults.length front.length
        { child with directorySignatureValue := some w } = [] := by
      simp [slotRequests, hvalue]
    rw [hnew] at hopen
    rw [hprovide] at hstep
    cases hstep
    exact ⟨hset, hopen⟩

/-- The child was given all it needs. -/
structure SlotAnswered (kind : SignatureKind) (path : Path) (filters : List Name) (answers : Key → Value S → Prop)
    (child : SubpathInfo S) (w : Value S) : Prop where
  value : child.value = some w
  node : answers (.node (FileSystem.append path child.filename)) w
  signature : w.isExistingDirectory = true → ∃ x, child.directorySignatureValue = some x ∧
    answers (signatureKey kind (FileSystem.append path child.filename) filters) x
  nothing : w.isExistingDirectory = false → child.directorySignatureValue = none

/-- The task was given all it needs, `v` first. -/
structure Answered (kind : SignatureKind) (path : Path) (filters : List Name) (answers : Key → Value S → Prop)
    (v : Value S) (task : SignatureTask S) : Prop where
  kind_eq : task.kind = kind
  path_eq : task.path = path
  directoryValue : task.directoryValue = some v
  contents : answers (contentsKey path filters) v
  filenames : filenamesOf kind filters v = some (task.childResults.map SubpathInfo.filename)
  slot : ∀ child ∈ task.childResults, ∃ w, SlotAnswered kind path filters answers child w

theorem SlotSound.answered (hsound : SlotSound kind path filters answers child) {i : Nat}
    (hclosed : slotRequests kind path filters n i child = []) :
    ∃ w, SlotAnswered kind path filters answers child w := by
  unfold slotRequests at hclosed
  cases hvalue : child.value with
  | none => simp [hvalue] at hclosed
  | some w =>
    refine ⟨w, hvalue, hsound.value w hvalue, fun hdirectory => ?_, fun hfile => ?_⟩
    · cases hsig : child.directorySignatureValue with
      | none => simp [hvalue, hdirectory, hsig] at hclosed
      | some x => exact ⟨x, rfl, (hsound.signature x hsig).1⟩
    · cases hsig : child.directorySignatureValue with
      | none => rfl
      | some x =>
        obtain ⟨-, w', hw', hdirectory⟩ := hsound.signature x hsig
        rw [hvalue] at hw'
        cases hw'
        rw [hfile] at hdirectory
        cases hdirectory

/-- A task that waits for nothing was given all it needs. -/
theorem Sound.answered (hsound : Sound kind path filters answers task)
    (hclosed : outstanding kind path filters task = []) : ∃ v, Answered kind path filters answers v task := by
  cases hv : task.directoryValue with
  | none => simp [outstanding, hv] at hclosed
  | some v =>
    obtain ⟨hcontents, hnames⟩ := hsound.contents v hv
    refine ⟨v, hsound.kind_eq, hsound.path_eq, hv, hcontents, hnames, fun child hchild => ?_⟩
    obtain ⟨before, after, hchildren⟩ := append_of_mem hchild
    rw [outstanding_middle (by simp [hv]) hchildren] at hclosed
    simp only [append_eq_nil_iff] at hclosed
    exact (hsound.slot child hchild).answered hclosed.1.2

end SignatureTask

open SignatureTask

/-! ## Runs of signature tasks -/

theorem start_signatureKey (kind : SignatureKind) (path : Path) (filters : List Name) :
    (tasks env fs).start (signatureKey kind path filters) =
      (.signature { kind := kind, path := path, filters := filters }, [(0, contentsKey path filters)]) := by
  cases kind <;> rfl

theorem provideValue_signature {task task' : SignatureTask S} {i : Nat} {w : Value S} {new : List Request}
    (h : task.provideValue i w = some (task', new)) :
    (tasks env fs).provideValue (.signature task) i w = some (.signature task', new) := by
  show (task.provideValue i w).map (fun next => (State.signature next.1, next.2)) = _
  rw [h]
  rfl

variable {kind : SignatureKind} {path : Path} {filters : List Name}

/-- **Every run of a signature task**: what it holds was given to it, and it waits for what the state says. -/
theorem run_signature {s : State S} {pending : List Request}
    (hrun : Run (tasks env fs) answers (signatureKey kind path filters) s pending) :
    ∃ task, s = .signature task ∧ Sound kind path filters answers task ∧
      pending.Perm (outstanding kind path filters task) := by
  refine hrun.invariant (fun s pending => ∃ task, s = .signature task ∧ Sound kind path filters answers task ∧
    pending.Perm (outstanding kind path filters task)) ?_ ?_
  · rw [start_signatureKey]
    refine ⟨_, rfl, ⟨rfl, rfl, rfl, fun _ => rfl, fun v hv => ?_, fun child hchild => ?_⟩, List.Perm.refl _⟩
    · cases hv
    · cases hchild
  · rintro s before after i k w s' new ⟨task, rfl, hsound, hperm⟩ hw hstep
    have hstep' : (task.provideValue i w).map (fun next => (State.signature next.1, next.2)) = some (s', new) := hstep
    obtain ⟨⟨task', new'⟩, hprovide, hnext⟩ := map_eq_some_iff.mp hstep'
    cases hnext
    obtain ⟨hsound', hperm'⟩ := hsound.step hperm hw hprovide
    exact ⟨task', rfl, hsound', hperm'⟩

variable {v : Value S} {filenames : List Name}

/-- **What a signature task completes with.** -/
theorem completes_signature (h : Completes (tasks env fs) answers (signatureKey kind path filters) v) :
    ∃ dv task, Answered kind path filters answers dv task ∧ v = task.inputsAvailable env.hash := by
  obtain ⟨s, hrun, hv⟩ := h
  obtain ⟨task, rfl, hsound, hperm⟩ := run_signature hrun
  obtain ⟨dv, hanswered⟩ := hsound.answered hperm.nil_eq.symm
  exact ⟨dv, task, hanswered, (some.inj hv).symm⟩

/-- A signature task fails at most on the first value it is given. -/
theorem accepts_signature_iff : Accepts (tasks env fs) answers (signatureKey kind path filters) ↔
    ∀ v, answers (contentsKey path filters) v → (filenamesOf kind filters v).isSome = true := by
  constructor
  · intro haccepts v hv
    have hrun : Run (tasks env fs) answers (signatureKey kind path filters) _ _ := .start
    rw [start_signatureKey] at hrun
    obtain ⟨next, hnext⟩ := (haccepts _ _ hrun).1 (0, contentsKey path filters) (by simp) v hv
    cases hnames : filenamesOf kind filters v with
    | some filenames => rfl
    | none =>
      simp [tasks, provideValue, SignatureTask.provideValue, hnames] at hnext
  · intro hcontents s pending hrun
    obtain ⟨task, rfl, hsound, hperm⟩ := run_signature hrun
    refine ⟨fun r hr w hw => ?_, fun _ => ⟨_, rfl⟩⟩
    have hprovide : ∃ next, task.provideValue r.1 w = some next := by
      cases pending_of_mem hsound (hperm.mem_iff.mp hr) with
      | contents hnone hi hk hprovide =>
        rw [hsound.path_eq, hsound.filters_eq] at hk
        obtain ⟨filenames, hnames⟩ := isSome_iff_exists.mp (hcontents w (hk ▸ hw))
        rw [hprovide, hsound.kind_eq, hsound.filters_eq, hnames]
        exact ⟨_, rfl⟩
      | child _ _ _ _ _ _ _ _ hprovide => exact ⟨_, hprovide w⟩
      | signature _ _ _ _ _ _ _ _ _ _ _ hprovide => exact ⟨_, hprovide w⟩
    obtain ⟨next, hnext⟩ := hprovide
    exact ⟨(.signature next.1, next.2), provideValue_signature hnext⟩

/-- How many answers a child still needs at most. -/
def slotWeight (child : SubpathInfo S) : Nat :=
  match child.value with
  | none => 2
  | some w => if w.isExistingDirectory && child.directorySignatureValue.isNone then 1 else 0

/-- How many answers a signature task over `m` children still needs at most. -/
def weight (m : Nat) : State S → Nat
  | .signature task =>
    match task.directoryValue with
    | none => 1 + 2 * m
    | some _ => (task.childResults.map slotWeight).sum
  | _ => 0

theorem sum_slotWeight_fresh (filenames : List Name) :
    ((filenames.map fun filename => ({ filename := filename } : SubpathInfo S)).map slotWeight).sum =
      2 * filenames.length := by
  induction filenames with
  | nil => rfl
  | cons x filenames ih =>
    have hx : slotWeight ({ filename := x } : SubpathInfo S) = 2 := rfl
    rw [map_cons, map_cons, sum_cons, ih, length_cons, hx]
    omega

theorem sum_slotWeight_lt {before after : List (SubpathInfo S)} {child child' : SubpathInfo S}
    (h : slotWeight child' < slotWeight child) :
    ((before ++ child' :: after).map slotWeight).sum < ((before ++ child :: after).map slotWeight).sum := by
  simp only [map_append, map_cons, sum_append, sum_cons]
  omega

variable (env fs) in
/-- **A signature task completes** if its first value is accepted and everything it then requests has a value. -/
theorem exists_completes_signature (hv : answers (contentsKey path filters) v)
    (hnames : filenamesOf kind filters v = some filenames)
    (hnode : ∀ x ∈ filenames, ∃ w, answers (.node (FileSystem.append path x)) w)
    (hsignature : ∀ x ∈ filenames, ∀ w, answers (.node (FileSystem.append path x)) w →
      w.isExistingDirectory = true → ∃ y, answers (signatureKey kind (FileSystem.append path x) filters) y) :
    ∃ result, Completes (tasks env fs) answers (signatureKey kind path filters) result := by
  refine exists_completes (fun s pending => ∃ task, s = .signature task ∧ Sound kind path filters answers task ∧
    (∀ dv, task.directoryValue = some dv → dv = v) ∧ pending.Perm (outstanding kind path filters task))
    (weight filenames.length) ?_ ?_ ?_
  · rw [start_signatureKey]
    refine ⟨_, rfl, ⟨rfl, rfl, rfl, fun _ => rfl, fun v hv => ?_, fun child hchild => ?_⟩, fun dv hdv => ?_,
      List.Perm.refl _⟩
    · cases hv
    · cases hchild
    · cases hdv
  · rintro s i k rest ⟨task, rfl, hsound, hdv, hperm⟩
    have hmem : (i, k) ∈ outstanding kind path filters task := hperm.mem_iff.mp (by simp)
    -- the names of the children are the ones of the first value
    have hchild : ∀ child ∈ task.childResults, child.filename ∈ filenames := by
      intro child hchild
      cases hvalue : task.directoryValue with
      | none =>
        rw [hsound.children_nil hvalue] at hchild
        cases hchild
      | some dv =>
        have hlist := (hsound.contents dv hvalue).2
        rw [hdv dv hvalue, hnames] at hlist
        rw [some.inj hlist]
        exact mem_map_of_mem hchild
    -- it is enough to find a value and what `provideValue` makes of it
    have hgo : ∀ w task' new, answers k w → task.provideValue i w = some (task', new) →
        (∀ dv, task'.directoryValue = some dv → dv = v) →
        weight filenames.length (.signature task') < weight filenames.length (.signature task) →
        ∃ w, answers k w ∧ ∃ s' new, (tasks env fs).provideValue (.signature task) i w = some (s', new) ∧
          (∃ task, s' = .signature task ∧ Sound kind path filters answers task ∧
            (∀ dv, task.directoryValue = some dv → dv = v) ∧
              (rest ++ new).Perm (outstanding kind path filters task)) ∧
            weight filenames.length s' < weight filenames.length (.signature task) := by
      intro w task' new hw hprovide hdv' hlt
      obtain ⟨hsound', hperm'⟩ := hsound.step (nil_append ((i, k) :: rest) ▸ hperm) hw hprovide
      exact ⟨w, hw, .signature task', new, provideValue_signature hprovide, ⟨task', rfl, hsound', hdv', hperm'⟩, hlt⟩
    cases pending_of_mem hsound hmem with
    | contents hnone hi hk hprovide =>
      have hstep := hprovide v
      rw [hsound.kind_eq, hsound.filters_eq, hnames] at hstep
      refine hgo v _ _ (by rw [hk, hsound.path_eq, hsound.filters_eq]; exact hv) hstep ?_ ?_
      · intro dv hdv
        cases hdv
        rfl
      · simp only [weight, hnone, sum_slotWeight_fresh]
        omega
    | child front back child hsome hchildren hvalue hi hk hprovide =>
      obtain ⟨w, hw⟩ := hnode child.filename (hchild child (by simp [hchildren]))
      refine hgo w _ _ (by rw [hk, hsound.path_eq]; exact hw) (hprovide w) hdv ?_
      obtain ⟨dv, hdv'⟩ := isSome_iff_exists.mp hsome
      simp only [weight, hdv', hchildren]
      apply sum_slotWeight_lt
      simp only [slotWeight, hvalue]
      split <;> omega
    | signature front back child w hsome hchildren hvalue hdirectory hnone hi hk hprovide =>
      have hin : child ∈ task.childResults := by simp [hchildren]
      have hw := (hsound.slot child hin).value w hvalue
      obtain ⟨y, hy⟩ := hsignature child.filename (hchild child hin) w hw hdirectory
      refine hgo y _ _ (by rw [hk, hsound.kind_eq, hsound.path_eq, hsound.filters_eq]; exact hy) (hprovide y) hdv ?_
      obtain ⟨dv, hdv'⟩ := isSome_iff_exists.mp hsome
      simp only [weight, hdv', hchildren]
      apply sum_slotWeight_lt
      simp [slotWeight, hvalue, hdirectory, hnone]
  · rintro s ⟨task, rfl, -, -, -⟩
    exact ⟨_, rfl⟩

variable (env fs) in
/-- The first step of a signature task. -/
theorem run_children (hv : answers (contentsKey path filters) v)
    (hnames : filenamesOf kind filters v = some filenames) :
    ∃ task, task.directoryValue = some v ∧ Run (tasks env fs) answers (signatureKey kind path filters)
      (.signature task) (filenames.mapIdx fun i x => (1 + i, .node (FileSystem.append path x))) := by
  have hrun : Run (tasks env fs) answers (signatureKey kind path filters)
      (.signature { kind := kind, path := path, filters := filters })
        ([] ++ (0, contentsKey path filters) :: []) := by
    have hrun₀ : Run (tasks env fs) answers (signatureKey kind path filters) _ _ := .start
    rw [start_signatureKey] at hrun₀
    exact hrun₀
  have hstep : SignatureTask.provideValue { kind := kind, path := path, filters := filters } 0 v =
      some ({ kind := kind, path := path, filters := filters, directoryValue := some v,
              childResults := filenames.map (fun filename => { filename := filename }) },
            filenames.mapIdx fun i x => (1 + i, .node (append path x))) := by
    simp only [SignatureTask.provideValue, if_true, hnames]
    rfl
  exact ⟨_, rfl, hrun.provide hv (provideValue_signature hstep)⟩

theorem requests_contents : Requests (tasks env fs) (signatureKey kind path filters) (contentsKey path filters) := by
  refine Requests.of_start (i := 0) ?_
  rw [start_signatureKey]
  exact mem_cons_self

section

variable (hv : Evaluates (tasks env fs) (contentsKey path filters) v)
include hv

/-- The nodes of listed names are requested. -/
theorem requests_child {x : Name}
    (hnames : filenamesOf kind filters v = some filenames) (hx : x ∈ filenames) :
    Requests (tasks env fs) (signatureKey kind path filters) (.node (FileSystem.append path x)) := by
  obtain ⟨task, -, hrun⟩ := run_children env fs hv hnames
  obtain ⟨i, hi, rfl⟩ := mem_iff_getElem.mp hx
  exact ⟨_, _, 1 + i, hrun, mem_mapIdx.mpr ⟨i, hi, rfl⟩⟩

/-- The signatures of listed directories are requested. -/
theorem requests_childSignature {w : Value S} {x : Name}
    (hnames : filenamesOf kind filters v = some filenames) (hx : x ∈ filenames)
    (hw : Evaluates (tasks env fs) (.node (FileSystem.append path x)) w) (hdirectory : w.isExistingDirectory = true) :
    Requests (tasks env fs) (signatureKey kind path filters)
      (signatureKey kind (FileSystem.append path x) filters) := by
  obtain ⟨task, htask, hrun⟩ := run_children env fs hv hnames
  obtain ⟨i, hi, rfl⟩ := mem_iff_getElem.mp hx
  have hmem : (1 + i, Key.node (append path filenames[i])) ∈
      filenames.mapIdx fun i x => (1 + i, Key.node (append path x)) :=
    mem_mapIdx.mpr ⟨i, hi, rfl⟩
  obtain ⟨before, after, hpending⟩ := append_of_mem hmem
  obtain ⟨task', hs, hsound, hperm⟩ := run_signature hrun
  cases hs
  rw [hpending] at hrun
  cases pending_of_mem hsound (hperm.mem_iff.mp hmem) with
  | contents hnone => rw [htask] at hnone; cases hnone
  | child front back child hsome hchildren hvalue hi hk hprovide =>
    have hname : append path filenames[i] = append path child.filename := by
      rw [hsound.path_eq] at hk
      exact Key.node.inj hk
    have hstep := hprovide w
    rw [if_pos hdirectory, hsound.kind_eq, hsound.path_eq, hsound.filters_eq, ← hname] at hstep
    refine ⟨_, _, 1 + task.childResults.length + front.length, hrun.provide hw (provideValue_signature hstep), ?_⟩
    simp
  | signature _ _ _ _ _ _ _ _ _ _ hk => cases hkind : task.kind <;> rw [hkind] at hk <;> cases hk

end

/-! ## Runs of the other tasks -/

variable {name : Name} {v : Value S}

theorem completes_virtualInput (hproducers : (env.lookupNode name).producers = [])
    (htype : (env.lookupNode name).type = .virtual) :
    Completes (tasks env fs) answers (.node name) v ↔ v = .virtualInput := by
  have hstart : (tasks env fs).start (.node name) = (.virtualInputNode, []) := by
    simp [tasks, start, startNode, hproducers, Ownership.BuildNode.isVirtual, htype]
  rw [completes_of_no_request (by rw [hstart]), hstart]
  show some Value.virtualInput = some v ↔ _
  simp [eq_comm]

theorem completes_fileInput (hproducers : (env.lookupNode name).producers = [])
    (htype : (env.lookupNode name).type = .plain) :
    Completes (tasks env fs) answers (.node name) v ↔ v = fileValue (fs.getFileInfo (nodePath name)) := by
  have hstart : (tasks env fs).start (.node name) = (.fileInputNode name, []) := by
    simp [tasks, start, startNode, hproducers, Ownership.BuildNode.isVirtual, Ownership.BuildNode.isDirectory,
      BuildNode.isDirectoryStructure, htype]
  rw [completes_of_no_request (by rw [hstart]), hstart]
  show some (fileValue (fs.getFileInfo (nodePath name))) = some v ↔ _
  simp [eq_comm]

theorem completes_command : Completes (tasks env fs) answers (.command name) v ↔ v = env.result name := by
  rw [completes_of_no_request rfl]
  show some (env.result name) = some v ↔ _
  simp [eq_comm]

section

variable (hproducers : (env.lookupNode name).producers = [])
include hproducers

theorem completes_directoryStructureInput
    (htype : (env.lookupNode name).type = .directoryStructure) :
    Completes (tasks env fs) answers (.node name) v ↔
      answers (.directoryTreeStructureSignature (nodePath name) (env.lookupNode name).exclusionPatterns) v := by
  have hstart : (tasks env fs).start (.node name) = (.directoryStructureInputNode .invalid,
      [(0, .directoryTreeStructureSignature (nodePath name) (env.lookupNode name).exclusionPatterns)]) := by
    simp [tasks, start, startNode, hproducers, Ownership.BuildNode.isVirtual, Ownership.BuildNode.isDirectory,
      BuildNode.isDirectoryStructure, htype]
  have hprovide : ∀ w, (tasks env fs).provideValue (.directoryStructureInputNode .invalid) 0 w =
      some (.directoryStructureInputNode w, []) := fun w => rfl
  rw [completes_of_one_request (i := 0)
    (k := .directoryTreeStructureSignature (nodePath name) (env.lookupNode name).exclusionPatterns) (by rw [hstart])]
  · rw [hstart]
    constructor
    · rintro ⟨w, s', hw, hstep, hv⟩
      cases hstep
      cases hv
      exact hw
    · intro hv
      exact ⟨v, _, hv, hprovide v, rfl⟩
  · rw [hstart]
    intro w s' new hstep
    cases hstep
    rfl

/-- A directory node has the value of its signature, whatever it has to wait for. -/
theorem answers_of_completes_directoryInput
    (htype : (env.lookupNode name).type = .directory) (h : Completes (tasks env fs) answers (.node name) v) :
    answers (.directoryTreeSignature (nodePath name) (env.lookupNode name).exclusionPatterns) v := by
  obtain ⟨s, hrun, hv⟩ := h
  -- first the paths to scan after are open, then the signature, then nothing
  have hinv := hrun.invariant (fun s pending => ∃ task : DirectoryInputNodeTask S,
    s = .directoryInputNode task ∧ task.name = name ∧
      ((pending ≠ [] ∧ (∀ r ∈ pending, r.1 ≠ 0) ∧
          task.finishedBlockingDeps + pending.length = task.totalBlockingDeps) ∨
        pending = performUnblockedRequest env name ∨
        (pending = [] ∧ answers (.directoryTreeSignature (nodePath name)
          (env.lookupNode name).exclusionPatterns) task.directorySignature))) ?_ ?_
  · obtain ⟨task, rfl, -, ⟨hne, -⟩ | hopen | ⟨-, hanswer⟩⟩ := hinv
    · exact absurd rfl hne
    · cases hopen
    · cases hv
      exact hanswer
  · have hstart : (tasks env fs).start (.node name) =
        (.directoryInputNode
            { name := name, totalBlockingDeps := (env.lookupNode name).mustScanAfterPaths.length },
          if (env.lookupNode name).mustScanAfterPaths = [] then performUnblockedRequest env name
          else (env.lookupNode name).mustScanAfterPaths.mapIdx fun i path => (1 + i, .node path)) := by
      simp [tasks, start, startNode, hproducers, Ownership.BuildNode.isVirtual, Ownership.BuildNode.isDirectory, htype]
    rw [hstart]
    refine ⟨_, rfl, rfl, ?_⟩
    by_cases hpaths : (env.lookupNode name).mustScanAfterPaths = []
    · exact Or.inr (Or.inl (if_pos hpaths))
    · rw [if_neg hpaths]
      refine Or.inl ⟨by simpa using hpaths, fun r hr => ?_, by simp⟩
      obtain ⟨i, hi, rfl⟩ := mem_mapIdx.mp hr
      simp
  · rintro s before after i k w s' new ⟨task, rfl, rfl, hcases⟩ hw hstep
    rcases hcases with ⟨-, hids, hlength⟩ | hopen | ⟨hnil, -⟩
    · have hi : i ≠ 0 := hids (i, k) (by simp)
      simp only [tasks, provideValue, if_neg hi, some.injEq, Prod.mk.injEq] at hstep
      obtain ⟨rfl, rfl⟩ := hstep
      refine ⟨_, rfl, rfl, ?_⟩
      rw [length_append, length_cons] at hlength
      split
      · -- the last one
        have hempty : before.length + after.length = 0 := by omega
        obtain ⟨rfl, rfl⟩ : before = [] ∧ after = [] :=
          ⟨eq_nil_of_length_eq_zero (by omega), eq_nil_of_length_eq_zero (by omega)⟩
        exact Or.inr (Or.inl rfl)
      · refine Or.inl ⟨?_, fun r hr => hids r ?_, ?_⟩
        · intro hnil
          simp only [append_nil, append_eq_nil_iff] at hnil
          rw [hnil.1, hnil.2, length_nil] at hlength
          omega
        · simp only [append_nil, mem_append] at hr
          simp only [mem_append, mem_cons]
          tauto
        · simp only [append_nil, length_append]
          omega
    · obtain ⟨rfl, hr, rfl⟩ : before = [] ∧ (i, k) = (0, .directoryTreeSignature (nodePath task.name)
          (env.lookupNode task.name).exclusionPatterns) ∧ after = [] := by
        cases before with
        | nil => simpa [performUnblockedRequest] using hopen
        | cons r before => simp [performUnblockedRequest] at hopen
      cases hr
      simp only [tasks, provideValue, if_true, some.injEq, Prod.mk.injEq] at hstep
      obtain ⟨rfl, rfl⟩ := hstep
      exact ⟨_, rfl, rfl, Or.inr (Or.inr ⟨rfl, hw⟩)⟩
    · simp at hnil

/-- A directory node that has nothing to wait for takes the value of its signature. -/
theorem completes_directoryInput
    (htype : (env.lookupNode name).type = .directory) (hpaths : (env.lookupNode name).mustScanAfterPaths = [])
    (hv : answers (.directoryTreeSignature (nodePath name) (env.lookupNode name).exclusionPatterns) v) :
    Completes (tasks env fs) answers (.node name) v := by
  have hstart : (tasks env fs).start (.node name) =
      (.directoryInputNode { name := name }, performUnblockedRequest env name) := by
    simp [tasks, start, startNode, hproducers, Ownership.BuildNode.isVirtual, Ownership.BuildNode.isDirectory, htype,
      hpaths]
  have hrun : Run (tasks env fs) answers (.node name) (.directoryInputNode { name := name })
      ([] ++ (0, .directoryTreeSignature (nodePath name) (env.lookupNode name).exclusionPatterns) :: []) := by
    have hrun₀ : Run (tasks env fs) answers (.node name) _ _ := .start
    rw [hstart] at hrun₀
    exact hrun₀
  exact ⟨.directoryInputNode { name := name, directorySignature := v }, hrun.provide hv rfl, rfl⟩

end

theorem completes_directoryContents : Completes (tasks env fs) answers (.directoryContents path) v ↔
    ∃ w, answers (.node path) w ∧ directoryContentsValue fs path w = some v := by
  rw [completes_of_one_request (i := 0) (k := .node path) rfl]
  · constructor
    · rintro ⟨w, s', hw, hstep, hv⟩
      cases hstep
      exact ⟨w, hw, hv⟩
    · rintro ⟨w, hw, hv⟩
      exact ⟨w, .directoryContents path w, hw, rfl, hv⟩
  · intro w s' new hstep
    cases hstep
    rfl

theorem requests_of_directoryContents : Requests (tasks env fs) (.directoryContents path) (.node path) :=
  Requests.of_start (i := 0) mem_cons_self

theorem completes_stat : Completes (tasks env fs) answers (.stat path) v ↔
    (∃ w, answers (.node path) w) ∧ v = fileValue (fs.getFileInfo path) := by
  rw [completes_of_one_request (i := 0) (k := .node path) rfl]
  · constructor
    · rintro ⟨w, s', hw, hstep, hv⟩
      cases hstep
      exact ⟨⟨w, hw⟩, (some.inj hv).symm⟩
    · rintro ⟨⟨w, hw⟩, rfl⟩
      exact ⟨w, .stat path, hw, rfl, rfl⟩
  · intro w s' new hstep
    cases hstep
    rfl

/-- The listing waits for the node, but only the information on the path counts. -/
theorem completes_filteredDirectoryContents :
    Completes (tasks env fs) answers (.filteredDirectoryContents path filters) v ↔
      (∃ w, answers (.node path) w) ∧ ∃ x, answers (.stat path) x ∧
        v = filteredDirectoryContentsValue env fs path filters x := by
  constructor
  · rintro ⟨s, hrun, hv⟩
    have hinv := hrun.invariant (fun s pending => ∃ dv, s = .filteredDirectoryContents path filters dv ∧
      pending ⊆ [(0, .node path), (1, .stat path)] ∧
      ((0, .node path) ∉ pending → ∃ w, answers (.node path) w) ∧
      ((1, .stat path) ∉ pending → answers (.stat path) dv)) ?_ ?_
    · obtain ⟨dv, rfl, -, hnode, hstat⟩ := hinv
      exact ⟨hnode (by simp), dv, hstat (by simp), (some.inj hv).symm⟩
    · refine ⟨.invalid, rfl, List.Subset.refl _, fun h => ?_, fun h => ?_⟩
      · exact absurd (by simp [tasks, start]) h
      · exact absurd (by simp [tasks, start]) h
    · rintro s before after i k w s' new ⟨dv, rfl, hsub, hnode, hstat⟩ hw hstep
      cases hstep
      have hmem : ∀ r, r ∈ before ++ (i, k) :: after ↔ r = (i, k) ∨ r ∈ before ++ after ++ [] := by
        intro r
        simp only [mem_append, mem_cons, append_nil]
        tauto
      have hik : (i, k) = (0, .node path) ∨ (i, k) = (1, .stat path) := by
        simpa using hsub ((hmem (i, k)).mpr (Or.inl rfl))
      refine ⟨_, rfl, fun r hr => hsub ((hmem r).mpr (Or.inr hr)), fun hnot => ?_, fun hnot => ?_⟩
      · rcases hik with h | h
        · cases h
          exact ⟨w, hw⟩
        · cases h
          refine hnode fun hin => ?_
          rcases (hmem _).mp hin with h | h
          · cases h
          · exact hnot h
      · rcases hik with h | h
        · cases h
          refine hstat fun hin => ?_
          rcases (hmem _).mp hin with h | h
          · cases h
          · exact hnot h
        · cases h
          exact hw
  · rintro ⟨⟨w, hw⟩, x, hx, rfl⟩
    have hrun : Run (tasks env fs) answers (.filteredDirectoryContents path filters) _
        ([] ++ (0, .node path) :: [(1, .stat path)]) := .start
    have hrun' : Run (tasks env fs) answers (.filteredDirectoryContents path filters) _
        ([] ++ (1, .stat path) :: []) := hrun.provide hw rfl
    exact ⟨_, hrun'.provide hx rfl, rfl⟩

theorem ProducedNodeTask.inputsAvailable_eq_some_iff (task : ProducedNodeTask S) (h : task.isInvalid = false) :
    task.inputsAvailable = some v ↔ v ≠ .invalid ∧ task.nodeResult = v := by
  rw [ProducedNodeTask.inputsAvailable, h, if_neg (by simp)]
  split
  · rename_i hinvalid
    rw [hinvalid]
    simp [eq_comm]
  · rename_i hne
    constructor
    · intro hv
      cases hv
      exact ⟨fun hinvalid => hne hinvalid, rfl⟩
    · rintro ⟨-, rfl⟩
      rfl

theorem completes_producedNode (hproducers : (env.lookupNode name).producers ≠ [])
    (htype : (env.lookupNode name).type ≠ .directory) :
    Completes (tasks env fs) answers (.node name) v ↔
      match getCommand env name with
      | none => v = .failedInput
      | some command => ∃ w, answers (.command command) w ∧ v ≠ .invalid ∧
          (env.commands command).getResultForOutput name (env.lookupNode name) w = some v := by
  have hstart : (tasks env fs).start (.node name) =
      (.producedNode (startProduced env name).1, (startProduced env name).2) := by
    simp [tasks, start, startNode, hproducers, Ownership.BuildNode.isDirectory, htype]
  cases hcommand : getCommand env name with
  | none =>
    have hproduced : startProduced env name = ({ name := name, isInvalid := true }, []) := by
      simp [startProduced, hcommand]
    rw [hproduced] at hstart
    rw [completes_of_no_request (by rw [hstart]), hstart]
    show some Value.failedInput = some v ↔ _
    simp [eq_comm]
  | some command =>
    have hproduced : startProduced env name =
        ({ name := name, producingCommand := some command }, [(0, .command command)]) := by
      simp [startProduced, hcommand]
    rw [hproduced] at hstart
    have hprovide : ∀ w, (tasks env fs).provideValue
        (.producedNode { name := name, producingCommand := some command }) 0 w =
          ((env.commands command).getResultForOutput name (env.lookupNode name) w).map fun nodeResult =>
            (.producedNode { name := name, producingCommand := some command, nodeResult := nodeResult }, []) := by
      intro w
      simp only [tasks, provideValue, bind_eq_bind, bind_some]
      cases (env.commands command).getResultForOutput name (env.lookupNode name) w <;> rfl
    rw [completes_of_one_request (i := 0) (k := .command command) (by rw [hstart])]
    · rw [hstart]
      constructor
      · rintro ⟨w, s', hw, hstep, hv⟩
        rw [hprovide] at hstep
        obtain ⟨nodeResult, hresult, hnext⟩ := map_eq_some_iff.mp hstep
        cases hnext
        obtain ⟨hne, rfl⟩ := (ProducedNodeTask.inputsAvailable_eq_some_iff
          { name := name, producingCommand := some command, nodeResult := nodeResult } rfl).mp hv
        exact ⟨w, hw, hne, hresult⟩
      · rintro ⟨w, hw, hne, hresult⟩
        refine ⟨w, _, hw, by rw [hprovide, hresult]; rfl, ?_⟩
        exact (ProducedNodeTask.inputsAvailable_eq_some_iff
          { name := name, producingCommand := some command, nodeResult := v } rfl).mpr ⟨hne, rfl⟩
    · rw [hstart]
      intro w s' new hstep
      rw [hprovide] at hstep
      obtain ⟨nodeResult, -, hnext⟩ := map_eq_some_iff.mp hstep
      cases hnext
      rfl

end DirectoryTasks

end Builra
