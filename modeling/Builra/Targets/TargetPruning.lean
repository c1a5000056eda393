import Builra.Lib.FiniteReach
import Builra.Targets.TargetDependencyResolver

namespace Builra

open List Function OrderedSet
open Option hiding filter_filter map_map mem_map

/-!
# `Targets.TargetPruning` — removing targets from the graph

`computeGraph` keeps some of the targets, and gives each of them an edge to the kept targets that it reaches through
removed ones. These are collected by a recursion over the removed targets, which ends where they have no cycle.
-/

/-- The dictionaries of the graph. -/
abbrev TargetDependencies (ConfiguredTarget BuildableItem : Type) :=
  ConfiguredTarget → Option (List (ResolvedTargetDependency ConfiguredTarget BuildableItem))

abbrev ReachableKeptTargets (ConfiguredTarget : Type) [DecidableEq ConfiguredTarget] :=
  ConfiguredTarget → Option (OrderedSet ConfiguredTarget)

namespace TargetPruning

variable {ConfiguredTarget BuildableItem : Type} [DecidableEq ConfiguredTarget]

/-! ## The source: what is reached through removed targets -/

/-- `dictionary[key, default: []].append(contentsOf:)` -/
def appendDefault (reachable : ReachableKeptTargets ConfiguredTarget) (key : ConfiguredTarget)
    (targets : List ConfiguredTarget) : ReachableKeptTargets ConfiguredTarget :=
  Function.update reachable key (some (((reachable key).getD .empty).appendContents targets))

section

variable (keptTargets removedTargets : OrderedSet ConfiguredTarget)
  (targetDependencies : TargetDependencies ConfiguredTarget BuildableItem)

/-- The loop over the outgoing edges; none where the assertion fails. -/
def visitEdges (visit : ConfiguredTarget → ReachableKeptTargets ConfiguredTarget →
      Option (ReachableKeptTargets ConfiguredTarget)) (configuredTarget : ConfiguredTarget) :
    List (ResolvedTargetDependency ConfiguredTarget BuildableItem) → ReachableKeptTargets ConfiguredTarget →
      Option (ReachableKeptTargets ConfiguredTarget)
  | [], reachable => some reachable
  | outgoingEdge :: rest, reachable =>
    if keptTargets.contains outgoingEdge.target then
      visitEdges visit configuredTarget rest (appendDefault reachable configuredTarget [outgoingEdge.target])
    else if removedTargets.contains outgoingEdge.target then do
      let reachable ← visit outgoingEdge.target reachable
      visitEdges visit configuredTarget rest
        (appendDefault reachable configuredTarget ((reachable outgoingEdge.target).getD .empty).elements)
    else none

/-- none when the fuel, a bound on the depth, runs out. -/
def visit : Nat → ConfiguredTarget → ReachableKeptTargets ConfiguredTarget →
    Option (ReachableKeptTargets ConfiguredTarget)
  | 0, _, _ => none
  | fuel + 1, configuredTarget, reachable =>
    match targetDependencies configuredTarget with
    | some (edge :: edges) =>
      visitEdges keptTargets removedTargets (visit fuel) configuredTarget (edge :: edges) reachable
    | _ => some (Function.update reachable configuredTarget (some .empty))

/-- The loop as long as a removed target was not visited. -/
def visitAll : Nat → ReachableKeptTargets ConfiguredTarget → Option (ReachableKeptTargets ConfiguredTarget)
  | 0, _ => none
  | fuel + 1, reachable =>
    match removedTargets.elements.find? (fun t => (reachable t).isNone) with
    | some unvisitedRemovedTarget => do
      let reachable ← visit keptTargets removedTargets targetDependencies fuel unvisitedRemovedTarget reachable
      visitAll fuel reachable
    | none => some reachable

variable (name : ConfiguredTarget → String)

/-- The edges of a kept target in the modified graph. -/
def updatedEdges (reachable : ReachableKeptTargets ConfiguredTarget)
    (outgoingEdges : List (ResolvedTargetDependency ConfiguredTarget BuildableItem)) :
    List (ResolvedTargetDependency ConfiguredTarget BuildableItem) :=
  outgoingEdges.flatMap (fun outgoingEdge =>
    if keptTargets.contains outgoingEdge.target then [outgoingEdge]
    else ((reachable outgoingEdge.target).getD .empty).elements.map (fun reachableKeptTarget =>
      { target := reachableKeptTarget,
        reason := .impliedByTransitiveDependencyViaRemovedTargets (name outgoingEdge.target) }))

/-- The graph without the removed targets. -/
def prune (allTargets : OrderedSet ConfiguredTarget) (fuel : Nat) :
    Option (OrderedSet ConfiguredTarget × TargetDependencies ConfiguredTarget BuildableItem) :=
  if removedTargets.elements = [] then some (allTargets, targetDependencies)
  else do
    let reachable ← visitAll keptTargets removedTargets targetDependencies fuel (fun _ => none)
    some (keptTargets, fun t =>
      if keptTargets.contains t then
        match updatedEdges keptTargets name reachable ((targetDependencies t).getD []) with
        | [] => none
        | edges => some edges
      else none)

end

/-! ## What is meant -/

/-- The graph is closed under its edges, and its targets are kept or removed. -/
structure Partition (allTargets keptTargets removedTargets : OrderedSet ConfiguredTarget) : Prop where
  order : keptTargets.elements.Sublist allTargets.elements
  removed : ∀ t, t ∈ removedTargets.elements ↔ t ∈ allTargets.elements ∧ t ∉ keptTargets.elements

/-- The outgoing edges of a target. -/
def edges (targetDependencies : TargetDependencies ConfiguredTarget BuildableItem) (t : ConfiguredTarget) :
    List (ResolvedTargetDependency ConfiguredTarget BuildableItem) := (targetDependencies t).getD []

/-- A path of at least one edge, all of whose inner nodes are removed. -/
inductive PathThrough (targetDependencies : TargetDependencies ConfiguredTarget BuildableItem)
    (removedTargets : OrderedSet ConfiguredTarget) : ConfiguredTarget → ConfiguredTarget → Prop
  | edge {u e}
      (he : e ∈ edges targetDependencies u) : PathThrough targetDependencies removedTargets u e.target
  | step {u v e}
      (he : e ∈ edges targetDependencies u) (hremoved : e.target ∈ removedTargets.elements)
      (hpath : PathThrough targetDependencies removedTargets e.target v) :
      PathThrough targetDependencies removedTargets u v

section

variable {keptTargets removedTargets : OrderedSet ConfiguredTarget}
  {targetDependencies : TargetDependencies ConfiguredTarget BuildableItem}

/-- An edge to a target leads to a kept one: it is this one, or removed with a path on. -/
def Leads (targetDependencies : TargetDependencies ConfiguredTarget BuildableItem)
    (removedTargets : OrderedSet ConfiguredTarget) (w v : ConfiguredTarget) : Prop :=
  w = v ∨ w ∈ removedTargets.elements ∧ PathThrough targetDependencies removedTargets w v

/-- An edge to a removed target. -/
def Through (targetDependencies : TargetDependencies ConfiguredTarget BuildableItem)
    (removedTargets : OrderedSet ConfiguredTarget) (u w : ConfiguredTarget) : Prop :=
  w ∈ removedTargets.elements ∧ ∃ e ∈ edges targetDependencies u, e.target = w

theorem pathThrough_iff {u v : ConfiguredTarget} : PathThrough targetDependencies removedTargets u v ↔
    ∃ e ∈ edges targetDependencies u, Leads targetDependencies removedTargets e.target v := by
  constructor
  · intro h
    cases h with
    | edge he => exact ⟨_, he, .inl rfl⟩
    | step he hremoved hpath => exact ⟨_, he, .inr ⟨hremoved, hpath⟩⟩
  · rintro ⟨e, he, rfl | ⟨hremoved, hpath⟩⟩
    · exact .edge he
    · exact .step he hremoved hpath

/-! ## The entries of the dictionary -/

/-- The kept targets that are known to be reached. -/
def entries (reachable : ReachableKeptTargets ConfiguredTarget) (t : ConfiguredTarget) : List ConfiguredTarget :=
  ((reachable t).getD .empty).elements

/-- What is known is right. -/
def Sound (keptTargets removedTargets : OrderedSet ConfiguredTarget)
    (targetDependencies : TargetDependencies ConfiguredTarget BuildableItem)
    (reachable : ReachableKeptTargets ConfiguredTarget) : Prop :=
  ∀ t, ∀ v ∈ entries reachable t, v ∈ keptTargets.elements ∧ PathThrough targetDependencies removedTargets t v

/-- All is known about a target, and the recursion from it ends. -/
structure Known (keptTargets removedTargets : OrderedSet ConfiguredTarget)
    (targetDependencies : TargetDependencies ConfiguredTarget BuildableItem)
    (reachable : ReachableKeptTargets ConfiguredTarget) (t : ConfiguredTarget) : Prop where
  isKey : reachable t ≠ none
  complete : ∀ v ∈ keptTargets.elements, PathThrough targetDependencies removedTargets t v → v ∈ entries reachable t
  acc : Acc (fun w u => Through targetDependencies removedTargets u w) t

/-- Nothing is forgotten. -/
def Grows (reachable reachable' : ReachableKeptTargets ConfiguredTarget) : Prop :=
  ∀ t, (reachable t ≠ none → reachable' t ≠ none) ∧ ∀ v ∈ entries reachable t, v ∈ entries reachable' t

variable {reachable reachable' reachable'' : ReachableKeptTargets ConfiguredTarget} {t u v : ConfiguredTarget}

theorem Grows.refl : Grows reachable reachable := fun _ => ⟨id, fun _ hv => hv⟩

theorem Grows.trans (h : Grows reachable reachable') (h' : Grows reachable' reachable'') :
    Grows reachable reachable'' :=
  fun t => ⟨fun hkey => (h' t).1 ((h t).1 hkey), fun v hv => (h' t).2 v ((h t).2 v hv)⟩

theorem Known.mono (h : Known keptTargets removedTargets targetDependencies reachable t)
    (hgrows : Grows reachable reachable') : Known keptTargets removedTargets targetDependencies reachable' t :=
  ⟨(hgrows t).1 h.isKey, fun v hv hpath => (hgrows t).2 v (h.complete v hv hpath), h.acc⟩

variable {targets : List ConfiguredTarget}

theorem mem_entries_appendDefault :
    v ∈ entries (appendDefault reachable u targets) t ↔ v ∈ entries reachable t ∨ t = u ∧ v ∈ targets := by
  unfold entries appendDefault
  by_cases ht : t = u
  · subst ht
    rw [update_self, getD_some, mem_appendContents]
    exact or_congr_right (and_iff_right rfl).symm
  · rw [update_of_ne ht]
    exact (or_iff_left (fun h => ht h.1)).symm

theorem appendDefault_eq_none :
    appendDefault reachable u targets t = none ↔ t ≠ u ∧ reachable t = none := by
  unfold appendDefault
  by_cases ht : t = u
  · subst ht
    rw [update_self]
    exact iff_of_false (some_ne_none _) (fun h => h.1 rfl)
  · rw [update_of_ne ht]
    exact (and_iff_right ht).symm

theorem grows_appendDefault (reachable : ReachableKeptTargets ConfiguredTarget) (u : ConfiguredTarget)
    (targets : List ConfiguredTarget) : Grows reachable (appendDefault reachable u targets) := by
  refine fun t => ⟨fun hkey hnone => hkey (appendDefault_eq_none.mp hnone).2, fun v hv => ?_⟩
  exact mem_entries_appendDefault.mpr (.inl hv)

theorem Sound.appendDefault (h : Sound keptTargets removedTargets targetDependencies reachable)
    (htargets : ∀ v ∈ targets, v ∈ keptTargets.elements ∧ PathThrough targetDependencies removedTargets u v) :
    Sound keptTargets removedTargets targetDependencies (appendDefault reachable u targets) := by
  intro t v hv
  rcases mem_entries_appendDefault.mp hv with hold | ⟨rfl, hnew⟩
  · exact h t v hold
  · exact htargets v hnew

/-! ## What a visit does -/

/-- The dictionary after some targets were visited. -/
structure Visited (keptTargets removedTargets : OrderedSet ConfiguredTarget)
    (targetDependencies : TargetDependencies ConfiguredTarget BuildableItem)
    (reachable reachable' : ReachableKeptTargets ConfiguredTarget) : Prop where
  sound : Sound keptTargets removedTargets targetDependencies reachable'
  grows : Grows reachable reachable'
  known : ∀ t, reachable t = none → reachable' t ≠ none →
    Known keptTargets removedTargets targetDependencies reachable' t

section

variable (hdisjoint : ∀ t ∈ keptTargets.elements, t ∉ removedTargets.elements)
include hdisjoint

/-- The loop over some edges of a target: what they lead to is known for the target, and all is known about the other
targets that were visited. -/
theorem visitEdges_spec
    {visit : ConfiguredTarget → ReachableKeptTargets ConfiguredTarget → Option (ReachableKeptTargets ConfiguredTarget)}
    (hvisit : ∀ t reachable reachable', visit t reachable = some reachable' →
      Sound keptTargets removedTargets targetDependencies reachable →
        Visited keptTargets removedTargets targetDependencies reachable reachable' ∧
          Known keptTargets removedTargets targetDependencies reachable' t)
    {rest : List (ResolvedTargetDependency ConfiguredTarget BuildableItem)}
    (hrest : ∀ e ∈ rest, e ∈ edges targetDependencies u)
    (h : visitEdges keptTargets removedTargets visit u rest reachable = some reachable')
    (hsound : Sound keptTargets removedTargets targetDependencies reachable) :
    Sound keptTargets removedTargets targetDependencies reachable' ∧ Grows reachable reachable' ∧
      (∀ t, reachable t = none → reachable' t ≠ none → t = u ∨
        Known keptTargets removedTargets targetDependencies reachable' t) ∧
      ∀ e ∈ rest, reachable' u ≠ none ∧
        (∀ v ∈ keptTargets.elements, Leads targetDependencies removedTargets e.target v → v ∈ entries reachable' u) ∧
        (e.target ∈ removedTargets.elements →
          Acc (fun w u => Through targetDependencies removedTargets u w) e.target) := by
  induction rest generalizing reachable with
  | nil =>
    obtain rfl : reachable = reachable' := Option.some.inj h
    exact ⟨hsound, .refl, fun t hnone hsome => absurd hnone hsome, fun e he => nomatch he⟩
  | cons e rest ih =>
    obtain ⟨he, hrest'⟩ := forall_mem_cons.mp hrest
    rw [visitEdges] at h
    by_cases hkept : keptTargets.contains e.target = true
    · rw [if_pos hkept] at h
      have hmem := contains_iff.mp hkept
      have hsound₁ : Sound keptTargets removedTargets targetDependencies
          (appendDefault reachable u [e.target]) := by
        refine hsound.appendDefault fun v hv => ?_
        rw [mem_singleton.mp hv]
        exact ⟨hmem, .edge he⟩
      obtain ⟨hsound', hgrows, hknown, hedges⟩ := ih hrest' h hsound₁
      refine ⟨hsound', (grows_appendDefault _ _ _).trans hgrows, fun t hnone hsome => ?_,
        forall_mem_cons.mpr ⟨⟨?_, fun v hv hleads => ?_, fun hremoved => ?_⟩, hedges⟩⟩
      · by_cases ht : t = u
        · exact .inl ht
        · exact hknown t (appendDefault_eq_none.mpr ⟨ht, hnone⟩) hsome
      · exact (hgrows u).1 (fun hnone => (appendDefault_eq_none.mp hnone).1 rfl)
      · rcases hleads with rfl | ⟨hremoved, -⟩
        · exact (hgrows u).2 _ (mem_entries_appendDefault.mpr (.inr ⟨rfl, mem_singleton_self _⟩))
        · exact absurd hremoved (hdisjoint _ hmem)
      · exact absurd hremoved (hdisjoint _ hmem)
    · rw [if_neg hkept] at h
      by_cases hcontains : removedTargets.contains e.target = true
      · rw [if_pos hcontains] at h
        obtain ⟨reachable₁, hfirst, h⟩ := bind_eq_some_iff.mp h
        have hremoved := contains_iff.mp hcontains
        obtain ⟨hvisited, htarget⟩ := hvisit _ _ _ hfirst hsound
        -- what is known for the target of the edge is added
        have hsound₂ : Sound keptTargets removedTargets targetDependencies
            (appendDefault reachable₁ u (entries reachable₁ e.target)) := by
          refine hvisited.sound.appendDefault fun v hv => ?_
          obtain ⟨hv, hpath⟩ := hvisited.sound e.target v hv
          exact ⟨hv, .step he hremoved hpath⟩
        obtain ⟨hsound', hgrows, hknown, hedges⟩ := ih hrest' h hsound₂
        have hgrows₁ := (grows_appendDefault reachable₁ u (entries reachable₁ e.target)).trans hgrows
        refine ⟨hsound', hvisited.grows.trans hgrows₁, fun t hnone hsome => ?_,
          forall_mem_cons.mpr ⟨⟨?_, fun v hv hleads => ?_, fun _ => htarget.acc⟩, hedges⟩⟩
        · by_cases ht : t = u
          · exact .inl ht
          · by_cases hnone₁ : reachable₁ t = none
            · exact hknown t (appendDefault_eq_none.mpr ⟨ht, hnone₁⟩) hsome
            · exact .inr ((hvisited.known t hnone hnone₁).mono hgrows₁)
        · exact (hgrows u).1 (fun hnone => (appendDefault_eq_none.mp hnone).1 rfl)
        · rcases hleads with rfl | ⟨-, hpath⟩
          · exact absurd hremoved (hdisjoint _ hv)
          · exact (hgrows u).2 v (mem_entries_appendDefault.mpr (.inr ⟨rfl, htarget.complete v hv hpath⟩))
      · rw [if_neg hcontains] at h
        cases h

/-- **A visit makes everything known about its target**, and ends only where the removed targets have no cycle. -/
theorem visit_spec (fuel : Nat) :
    ∀ (t : ConfiguredTarget) (reachable reachable' : ReachableKeptTargets ConfiguredTarget),
      visit keptTargets removedTargets targetDependencies fuel t reachable = some reachable' →
      Sound keptTargets removedTargets targetDependencies reachable →
        Visited keptTargets removedTargets targetDependencies reachable reachable' ∧
          Known keptTargets removedTargets targetDependencies reachable' t := by
  induction fuel with
  | zero => exact fun t reachable reachable' h => nomatch h
  | succ fuel ih =>
    intro t reachable reachable' h hsound
    rw [visit] at h
    split at h
    · rename_i edge rest hdependencies
      have hedges : edges targetDependencies t = edge :: rest := by
        unfold edges
        rw [hdependencies]
        rfl
      obtain ⟨hsound', hgrows, hknown, hspec⟩ :=
        visitEdges_spec hdisjoint ih (fun e he => by rw [hedges]; exact he) h hsound
      have htarget : Known keptTargets removedTargets targetDependencies reachable' t := by
        refine ⟨(hspec edge mem_cons_self).1, fun v hv hpath => ?_, ?_⟩
        · obtain ⟨e, he, hleads⟩ := pathThrough_iff.mp hpath
          rw [hedges] at he
          exact (hspec e he).2.1 v hv hleads
        · refine Acc.intro t fun w hw => ?_
          obtain ⟨hremoved, e, he, rfl⟩ := hw
          rw [hedges] at he
          exact (hspec e he).2.2 hremoved
      refine ⟨⟨hsound', hgrows, fun u hnone hsome => ?_⟩, htarget⟩
      rcases hknown u hnone hsome with rfl | hu
      · exact htarget
      · exact hu
    · rename_i hdependencies
      cases h
      have hedges : edges targetDependencies t = [] := by
        unfold edges
        cases hlist : targetDependencies t with
        | none => rfl
        | some l =>
          cases l with
          | nil => rfl
          | cons edge rest => exact absurd hlist (hdependencies edge rest)
      have hnopath : ∀ v, ¬ PathThrough targetDependencies removedTargets t v := by
        intro v hpath
        obtain ⟨e, he, -⟩ := pathThrough_iff.mp hpath
        rw [hedges] at he
        cases he
      have htarget : Known keptTargets removedTargets targetDependencies
          (update reachable t (some .empty)) t := by
        refine ⟨?_, fun v _ hpath => absurd hpath (hnopath v), Acc.intro t fun w hw => ?_⟩
        · rw [update_self]
          exact some_ne_none _
        · obtain ⟨-, e, he, -⟩ := hw
          rw [hedges] at he
          cases he
      refine ⟨⟨fun u v hv => ?_, fun u => ?_, fun u hnone hsome => ?_⟩, htarget⟩
      · by_cases hu : u = t
        · subst hu
          unfold entries at hv
          rw [update_self] at hv
          cases hv
        · unfold entries at hv
          rw [update_of_ne hu] at hv
          exact hsound u v hv
      · by_cases hu : u = t
        · subst hu
          exact ⟨fun _ => htarget.isKey, fun v hv => absurd (hsound u v hv).2 (hnopath v)⟩
        · unfold entries
          rw [update_of_ne hu]
          exact ⟨id, fun v hv => hv⟩
      · by_cases hu : u = t
        · rw [hu]
          exact htarget
        · rw [update_of_ne hu] at hsome
          exact absurd hnone hsome

/-- **In the end, everything is known about the removed targets.** -/
theorem visitAll_spec {fuel : Nat}
    (h : visitAll keptTargets removedTargets targetDependencies fuel reachable = some reachable')
    (hsound : Sound keptTargets removedTargets targetDependencies reachable)
    (hknown : ∀ t, reachable t ≠ none → Known keptTargets removedTargets targetDependencies reachable t) :
    Sound keptTargets removedTargets targetDependencies reachable' ∧
      ∀ t ∈ removedTargets.elements, Known keptTargets removedTargets targetDependencies reachable' t := by
  induction fuel generalizing reachable with
  | zero => cases h
  | succ fuel ih =>
    rw [visitAll] at h
    split at h
    · rename_i unvisited hfind
      obtain ⟨reachable₁, hfirst, h⟩ := bind_eq_some_iff.mp h
      obtain ⟨hvisited, -⟩ := visit_spec hdisjoint fuel _ _ _ hfirst hsound
      refine ih h hvisited.sound fun t hkey => ?_
      by_cases hnone : reachable t = none
      · exact hvisited.known t hnone hkey
      · exact (hknown t hnone).mono hvisited.grows
    · rename_i hfind
      cases h
      refine ⟨hsound, fun t ht => hknown t fun hnone => ?_⟩
      have hvisited := List.find?_eq_none.mp hfind t ht
      rw [hnone] at hvisited
      exact hvisited rfl

end

/-! ## Termination -/

variable {rest : List (ResolvedTargetDependency ConfiguredTarget BuildableItem)}

theorem visitEdges_mono
    {visit visit' : ConfiguredTarget → ReachableKeptTargets ConfiguredTarget →
      Option (ReachableKeptTargets ConfiguredTarget)}
    (hvisit : ∀ t reachable reachable', visit t reachable = some reachable' → visit' t reachable = some reachable')
    (h : visitEdges keptTargets removedTargets visit u rest reachable = some reachable') :
    visitEdges keptTargets removedTargets visit' u rest reachable = some reachable' := by
  induction rest generalizing reachable with
  | nil => exact h
  | cons e rest ih =>
    rw [visitEdges] at h ⊢
    split_ifs at h ⊢ with hkept hremoved
    · exact ih h
    · obtain ⟨reachable₁, hfirst, h⟩ := bind_eq_some_iff.mp h
      exact bind_eq_some_iff.mpr ⟨reachable₁, hvisit _ _ _ hfirst, ih h⟩

theorem visit_mono (fuel : Nat) :
    ∀ (t : ConfiguredTarget) (reachable reachable' : ReachableKeptTargets ConfiguredTarget),
      visit keptTargets removedTargets targetDependencies fuel t reachable = some reachable' →
        visit keptTargets removedTargets targetDependencies (fuel + 1) t reachable = some reachable' := by
  induction fuel with
  | zero => exact fun t reachable reachable' h => nomatch h
  | succ fuel ih =>
    intro t reachable reachable' h
    rw [visit] at h ⊢
    split at h
    · exact visitEdges_mono ih h
    · exact h

theorem visitAll_mono {fuel : Nat}
    (h : visitAll keptTargets removedTargets targetDependencies fuel reachable = some reachable') :
    visitAll keptTargets removedTargets targetDependencies (fuel + 1) reachable = some reachable' := by
  induction fuel generalizing reachable with
  | zero => cases h
  | succ fuel ih =>
    rw [visitAll] at h ⊢
    split at h
    · obtain ⟨reachable₁, hfirst, h⟩ := bind_eq_some_iff.mp h
      exact bind_eq_some_iff.mpr ⟨reachable₁, visit_mono fuel _ _ _ hfirst, ih h⟩
    · exact h

/-- The loop over some edges ends if the visits of the removed targets do. -/
theorem visitEdges_total
    {visit : ConfiguredTarget → ReachableKeptTargets ConfiguredTarget → Option (ReachableKeptTargets ConfiguredTarget)}
    (h : ∀ e ∈ rest, e.target ∈ keptTargets.elements ∨ e.target ∈ removedTargets.elements ∧
      ∀ reachable, ∃ reachable', visit e.target reachable = some reachable')
    (reachable : ReachableKeptTargets ConfiguredTarget) :
    ∃ reachable', visitEdges keptTargets removedTargets visit u rest reachable = some reachable' := by
  induction rest generalizing reachable with
  | nil => exact ⟨reachable, rfl⟩
  | cons e rest ih =>
    obtain ⟨he, hrest⟩ := forall_mem_cons.mp h
    rw [visitEdges]
    by_cases hkept : e.target ∈ keptTargets.elements
    · rw [if_pos (OrderedSet.contains_iff.mpr hkept)]
      exact ih hrest _
    · obtain ⟨hremoved, hvisit⟩ := he.resolve_left hkept
      obtain ⟨reachable₁, hfirst⟩ := hvisit reachable
      obtain ⟨reachable', hlast⟩ := ih hrest
        (appendDefault reachable₁ u ((reachable₁ e.target).getD .empty).elements)
      rw [if_neg (fun hcontains => hkept (OrderedSet.contains_iff.mp hcontains)),
        if_pos (OrderedSet.contains_iff.mpr hremoved)]
      exact ⟨reachable', bind_eq_some_iff.mpr ⟨reachable₁, hfirst, hlast⟩⟩

/-- A bound for all elements of a list. -/
theorem exists_bound {α : Type} {P : α → Nat → Prop} {l : List α} (h : ∀ a ∈ l, ∃ n, ∀ m, n ≤ m → P a m) :
    ∃ n, ∀ a ∈ l, ∀ m, n ≤ m → P a m := by
  induction l with
  | nil => exact ⟨0, fun a ha => nomatch ha⟩
  | cons a l ih =>
    obtain ⟨ha, hl⟩ := forall_mem_cons.mp h
    obtain ⟨n₁, h₁⟩ := ha
    obtain ⟨n₂, h₂⟩ := ih hl
    refine ⟨max n₁ n₂, forall_mem_cons.mpr ⟨fun m hm => h₁ m (le_of_max_le_left hm), fun b hb m hm => ?_⟩⟩
    exact h₂ b hb m (le_of_max_le_right hm)

/-- **A visit ends** if there is no endless chain of removed targets. -/
theorem visit_total
    (hclosed : ∀ u, u ∈ keptTargets.elements ∨ u ∈ removedTargets.elements →
      ∀ e ∈ edges targetDependencies u, e.target ∈ keptTargets.elements ∨ e.target ∈ removedTargets.elements)
    (hacc : Acc (fun w u => Through targetDependencies removedTargets u w) t) (ht : t ∈ removedTargets.elements) :
    ∃ n, ∀ fuel, n ≤ fuel → ∀ reachable, ∃ reachable',
      visit keptTargets removedTargets targetDependencies fuel t reachable = some reachable' := by
  induction hacc with
  | intro t _ ih =>
    obtain ⟨n, hn⟩ : ∃ n, ∀ e ∈ edges targetDependencies t, ∀ fuel, n ≤ fuel →
        e.target ∈ removedTargets.elements → ∀ reachable, ∃ reachable',
          visit keptTargets removedTargets targetDependencies fuel e.target reachable = some reachable' := by
      refine exists_bound fun e he => ?_
      by_cases hremoved : e.target ∈ removedTargets.elements
      · obtain ⟨n, hn⟩ := ih e.target ⟨hremoved, e, he, rfl⟩ hremoved
        exact ⟨n, fun fuel hfuel _ => hn fuel hfuel⟩
      · exact ⟨0, fun fuel _ h => absurd h hremoved⟩
    refine ⟨n + 1, fun fuel hfuel reachable => ?_⟩
    obtain ⟨fuel, rfl⟩ : ∃ k, fuel = k + 1 := ⟨fuel - 1, by omega⟩
    rw [visit]
    split
    · rename_i edge rest hdependencies
      refine visitEdges_total (fun e he => ?_) reachable
      have hmem : e ∈ edges targetDependencies t := by
        unfold edges
        rw [hdependencies]
        exact he
      refine (hclosed t (.inr ht) e hmem).imp id fun hremoved => ⟨hremoved, ?_⟩
      exact hn e hmem fuel (Nat.le_of_succ_le_succ hfuel) hremoved
    · exact ⟨_, rfl⟩

/-- The removed targets that were not visited. -/
def unvisited (removedTargets : OrderedSet ConfiguredTarget) (reachable : ReachableKeptTargets ConfiguredTarget) :
    List ConfiguredTarget := removedTargets.elements.filter (fun t => (reachable t).isNone)

theorem unvisited_lt (hgrows : Grows reachable reachable') (ht : t ∈ removedTargets.elements)
    (hnone : reachable t = none) (hsome : reachable' t ≠ none) :
    (unvisited removedTargets reachable').length < (unvisited removedTargets reachable).length := by
  have hfilter : unvisited removedTargets reachable' =
      (unvisited removedTargets reachable).filter (fun t => (reachable' t).isNone) := by
    unfold unvisited
    rw [filter_filter]
    refine filter_congr fun u _ => ?_
    cases hu : reachable u with
    | none => exact (Bool.and_true _).symm
    | some s =>
      have hkey : reachable' u ≠ none := (hgrows u).1 (by rw [hu]; exact some_ne_none s)
      rw [isNone_some, Bool.and_false]
      exact isNone_eq_false_iff.mpr (isSome_iff_ne_none.mpr hkey)
  rw [hfilter, length_filter_lt_length_iff_exists]
  refine ⟨t, mem_filter.mpr ⟨ht, by rw [hnone]; rfl⟩, ?_⟩
  rw [isNone_iff_eq_none]
  exact hsome

theorem visitAll_total (hdisjoint : ∀ t ∈ keptTargets.elements, t ∉ removedTargets.elements)
    (hclosed : ∀ u, u ∈ keptTargets.elements ∨ u ∈ removedTargets.elements →
      ∀ e ∈ edges targetDependencies u, e.target ∈ keptTargets.elements ∨ e.target ∈ removedTargets.elements)
    (hacc : ∀ t ∈ removedTargets.elements, Acc (fun w u => Through targetDependencies removedTargets u w) t)
    (hsound : Sound keptTargets removedTargets targetDependencies reachable) :
    ∃ fuel reachable', visitAll keptTargets removedTargets targetDependencies fuel reachable = some reachable' := by
  obtain ⟨n, hn⟩ : ∃ n, ∀ t ∈ removedTargets.elements, ∀ fuel, n ≤ fuel → ∀ reachable, ∃ reachable',
      visit keptTargets removedTargets targetDependencies fuel t reachable = some reachable' :=
    exists_bound fun t ht => visit_total hclosed (hacc t ht) ht
  -- each round leaves fewer targets unvisited
  have hrounds : ∀ k reachable, Sound keptTargets removedTargets targetDependencies reachable →
      (unvisited removedTargets reachable).length ≤ k → ∃ reachable',
        visitAll keptTargets removedTargets targetDependencies (n + k + 1) reachable = some reachable' := by
    intro k
    induction k with
    | zero =>
      intro reachable _ hlength
      have hnil := eq_nil_of_length_eq_zero (Nat.le_zero.mp hlength)
      have hfind : removedTargets.elements.find? (fun t => (reachable t).isNone) = none :=
        List.find?_eq_none.mpr (filter_eq_nil_iff.mp hnil)
      rw [visitAll, hfind]
      exact ⟨reachable, rfl⟩
    | succ k ih =>
      intro reachable hsound hlength
      rw [visitAll]
      split
      · rename_i t hfind
        have ht := mem_of_find?_eq_some hfind
        obtain ⟨reachable₁, hfirst⟩ := hn t ht (n + (k + 1)) (by omega) reachable
        obtain ⟨hvisited, hknown⟩ := visit_spec hdisjoint _ _ _ _ hfirst hsound
        have hnone := isNone_iff_eq_none.mp (List.find?_eq_some_iff_append.mp hfind).1
        have hlt := unvisited_lt hvisited.grows ht hnone hknown.isKey
        obtain ⟨reachable', hlast⟩ := ih reachable₁ hvisited.sound (by omega)
        exact ⟨reachable', bind_eq_some_iff.mpr ⟨reachable₁, hfirst, hlast⟩⟩
      · exact ⟨reachable, rfl⟩
  exact ⟨_, hrounds _ reachable hsound (le_refl _)⟩

/-! ## The modified graph -/

/-- No removed target has a path to itself through removed ones. -/
def Acyclic (removedTargets : OrderedSet ConfiguredTarget)
    (targetDependencies : TargetDependencies ConfiguredTarget BuildableItem) : Prop :=
  ∀ t ∈ removedTargets.elements, ¬ Relation.TransGen (Through targetDependencies removedTargets) t t

theorem acc_of_acyclic (h : Acyclic removedTargets targetDependencies) (ht : t ∈ removedTargets.elements) :
    Acc (fun w u => Through targetDependencies removedTargets u w) t := by
  have hremoved : ∀ w ∈ FiniteReach.reach (Through targetDependencies removedTargets) t,
      w ∈ removedTargets.elements := by
    intro w hw
    rcases Relation.ReflTransGen.cases_tail hw with rfl | ⟨u, -, hthrough⟩
    · exact ht
    · exact hthrough.1
  refine FiniteReach.acc_of_label id removedTargets.elements.finite_toSet hremoved fun u hu w hpath heq => ?_
  obtain rfl : u = w := heq
  exact h u (hremoved u hu) hpath

theorem acyclic_of_acc
    (h : ∀ t ∈ removedTargets.elements, Acc (fun w u => Through targetDependencies removedTargets u w) t) :
    Acyclic removedTargets targetDependencies := by
  intro t ht
  induction h t ht with
  | intro t _ ih =>
    intro hcycle
    obtain ⟨w, hthrough, hback⟩ := Relation.TransGen.head'_iff.mp hcycle
    exact ih w hthrough hthrough.1 (Relation.TransGen.tail' hback hthrough)

/-- The targets that an edge is replaced by. -/
def newTargets (keptTargets : OrderedSet ConfiguredTarget) (reachable : ReachableKeptTargets ConfiguredTarget)
    (t : ConfiguredTarget) : List ConfiguredTarget :=
  if keptTargets.contains t then [t] else entries reachable t

theorem map_updatedEdges (name : ConfiguredTarget → String)
    (l : List (ResolvedTargetDependency ConfiguredTarget BuildableItem)) :
    (updatedEdges keptTargets name reachable l).map (fun e => e.target) =
      l.flatMap (fun e => newTargets keptTargets reachable e.target) := by
  unfold updatedEdges
  rw [map_flatMap]
  congr 1
  funext e
  unfold newTargets
  split_ifs
  · rfl
  · rw [map_map]
    exact map_id _

theorem mem_newTargets (hdisjoint : ∀ t ∈ keptTargets.elements, t ∉ removedTargets.elements)
    (hsound : Sound keptTargets removedTargets targetDependencies reachable)
    (hknown : ∀ t ∈ removedTargets.elements, Known keptTargets removedTargets targetDependencies reachable t)
    (ht : t ∈ keptTargets.elements ∨ t ∈ removedTargets.elements) : v ∈ newTargets keptTargets reachable t ↔
      v ∈ keptTargets.elements ∧ Leads targetDependencies removedTargets t v := by
  unfold newTargets Leads
  by_cases hkept : t ∈ keptTargets.elements
  · rw [if_pos (OrderedSet.contains_iff.mpr hkept), mem_singleton]
    constructor
    · rintro rfl
      exact ⟨hkept, .inl rfl⟩
    · rintro ⟨-, rfl | ⟨hremoved, -⟩⟩
      · rfl
      · exact absurd hremoved (hdisjoint t hkept)
  · have hremoved := ht.resolve_left hkept
    rw [if_neg (fun hcontains => hkept (OrderedSet.contains_iff.mp hcontains))]
    constructor
    · intro hv
      obtain ⟨hv', hpath⟩ := hsound t v hv
      exact ⟨hv', .inr ⟨hremoved, hpath⟩⟩
    · rintro ⟨hv, rfl | ⟨-, hpath⟩⟩
      · exact absurd hv hkept
      · exact (hknown t hremoved).complete v hv hpath

theorem nodup_newTargets (t : ConfiguredTarget) : (newTargets keptTargets reachable t).Nodup := by
  unfold newTargets
  split_ifs
  · exact nodup_singleton t
  · exact nodup _

/-- Two edges of the list do not lead to the same kept target. -/
def Apart (keptTargets removedTargets : OrderedSet ConfiguredTarget)
    (targetDependencies : TargetDependencies ConfiguredTarget BuildableItem)
    (l : List (ResolvedTargetDependency ConfiguredTarget BuildableItem)) : Prop :=
  l.Pairwise (fun e e' => ∀ v ∈ keptTargets.elements,
    ¬ (Leads targetDependencies removedTargets e.target v ∧ Leads targetDependencies removedTargets e'.target v))

/-- **The new edges of a target** lead to the kept targets that it reaches through removed ones, and list each of them
once if no two of its edges lead to it. -/
theorem updatedEdges_spec (name : ConfiguredTarget → String)
    (hdisjoint : ∀ t ∈ keptTargets.elements, t ∉ removedTargets.elements)
    (hsound : Sound keptTargets removedTargets targetDependencies reachable)
    (hknown : ∀ t ∈ removedTargets.elements, Known keptTargets removedTargets targetDependencies reachable t)
    (hclosed : ∀ e ∈ edges targetDependencies u,
      e.target ∈ keptTargets.elements ∨ e.target ∈ removedTargets.elements) :
    (∀ v, v ∈ (updatedEdges keptTargets name reachable (edges targetDependencies u)).map (fun e => e.target) ↔
        v ∈ keptTargets.elements ∧ PathThrough targetDependencies removedTargets u v) ∧
      (((updatedEdges keptTargets name reachable (edges targetDependencies u)).map (fun e => e.target)).Nodup ↔
        Apart keptTargets removedTargets targetDependencies (edges targetDependencies u)) := by
  rw [map_updatedEdges]
  constructor
  · intro v
    rw [mem_flatMap, pathThrough_iff]
    constructor
    · rintro ⟨e, he, hv⟩
      obtain ⟨hv', hleads⟩ := (mem_newTargets hdisjoint hsound hknown (hclosed e he)).mp hv
      exact ⟨hv', e, he, hleads⟩
    · rintro ⟨hv, e, he, hleads⟩
      exact ⟨e, he, (mem_newTargets hdisjoint hsound hknown (hclosed e he)).mpr ⟨hv, hleads⟩⟩
  · have hnodup : ∀ e ∈ edges targetDependencies u, (newTargets keptTargets reachable e.target).Nodup :=
      fun e _ => nodup_newTargets e.target
    rw [nodup_flatMap, and_iff_right hnodup]
    refine List.Pairwise.iff_of_mem fun {e e'} he he' => ?_
    show List.Disjoint _ _ ↔ _
    unfold List.Disjoint
    constructor
    · rintro h v hv ⟨hleads, hleads'⟩
      exact h ((mem_newTargets hdisjoint hsound hknown (hclosed e he)).mpr ⟨hv, hleads⟩)
        ((mem_newTargets hdisjoint hsound hknown (hclosed e' he')).mpr ⟨hv, hleads'⟩)
    · intro h v hv hv'
      obtain ⟨hkept, hleads⟩ := (mem_newTargets hdisjoint hsound hknown (hclosed e he)).mp hv
      exact h v hkept ⟨hleads, ((mem_newTargets hdisjoint hsound hknown (hclosed e' he')).mp hv').2⟩

variable {allTargets : OrderedSet ConfiguredTarget}

/-- What the modified graph is to be. -/
structure IsPruned (allTargets keptTargets removedTargets : OrderedSet ConfiguredTarget)
    (targetDependencies : TargetDependencies ConfiguredTarget BuildableItem)
    (result : OrderedSet ConfiguredTarget × TargetDependencies ConfiguredTarget BuildableItem) : Prop where
  order : result.1.elements.Sublist allTargets.elements
  kept : ∀ t, t ∈ result.1.elements ↔ t ∈ keptTargets.elements
  reaches : ∀ u ∈ keptTargets.elements, ∀ v ∈ keptTargets.elements,
    (∃ e ∈ edges result.2 u, e.target = v) ↔ PathThrough targetDependencies removedTargets u v
  closed : ∀ u ∈ keptTargets.elements, ∀ e ∈ edges result.2 u, e.target ∈ keptTargets.elements
  once : ∀ u ∈ keptTargets.elements, ((edges result.2 u).map (fun e => e.target)).Nodup

/-- The removed targets have no cycle, and no two edges of a kept target lead to the same one. -/
structure Prunable (keptTargets removedTargets : OrderedSet ConfiguredTarget)
    (targetDependencies : TargetDependencies ConfiguredTarget BuildableItem) : Prop where
  acyclic : Acyclic removedTargets targetDependencies
  apart : ∀ u ∈ keptTargets.elements, Apart keptTargets removedTargets targetDependencies (edges targetDependencies u)

section

variable (h : Partition allTargets keptTargets removedTargets)
include h

theorem Partition.disjoint :
    ∀ t ∈ keptTargets.elements, t ∉ removedTargets.elements :=
  fun t ht hremoved => ((h.removed t).mp hremoved).2 ht

theorem Partition.mem_iff :
    t ∈ allTargets.elements ↔ t ∈ keptTargets.elements ∨ t ∈ removedTargets.elements := by
  rw [h.removed]
  constructor
  · intro ht
    by_cases hkept : t ∈ keptTargets.elements
    · exact .inl hkept
    · exact .inr ⟨ht, hkept⟩
  · rintro (hkept | ⟨ht, -⟩)
    · exact h.order.subset hkept
    · exact ht

end

/-- The edges of a kept target in the result. -/
theorem edges_result (ht : t ∈ keptTargets.elements)
    (updated : ConfiguredTarget → List (ResolvedTargetDependency ConfiguredTarget BuildableItem)) :
    edges (fun t => if keptTargets.contains t then
      match updated t with
      | [] => none
      | edges => some edges
    else none) t = updated t := by
  unfold edges
  dsimp only
  rw [if_pos (OrderedSet.contains_iff.mpr ht)]
  split
  · rename_i hnil
    exact hnil.symm
  · rfl

variable (name : ConfiguredTarget → String)

variable {result : OrderedSet ConfiguredTarget × TargetDependencies ConfiguredTarget BuildableItem}

/-- A result with enough fuel stays the same with more. -/
theorem prune_mono {fuel : Nat}
    (h : prune keptTargets removedTargets targetDependencies name allTargets fuel = some result) :
    prune keptTargets removedTargets targetDependencies name allTargets (fuel + 1) = some result := by
  unfold prune at h ⊢
  split_ifs at h ⊢ with hremoved
  · exact h
  · obtain ⟨reachable, hvisit, h⟩ := bind_eq_some_iff.mp h
    exact bind_eq_some_iff.mpr ⟨reachable, visitAll_mono hvisit, h⟩

section

variable (hpartition : Partition allTargets keptTargets removedTargets)
include hpartition

section

variable (hclosed : ∀ u ∈ allTargets.elements, ∀ e ∈ edges targetDependencies u, e.target ∈ allTargets.elements)
include hclosed

/-- What the result is made of. -/
theorem exists_reachable
    {fuel : Nat}
    (h : prune keptTargets removedTargets targetDependencies name allTargets fuel = some result) :
    ∃ reachable, Sound keptTargets removedTargets targetDependencies reachable ∧
      (∀ t ∈ removedTargets.elements, Known keptTargets removedTargets targetDependencies reachable t) ∧
      result.1.elements.Sublist allTargets.elements ∧ (∀ t, t ∈ result.1.elements ↔ t ∈ keptTargets.elements) ∧
      ∀ u ∈ keptTargets.elements,
        edges result.2 u = updatedEdges keptTargets name reachable (edges targetDependencies u) := by
  have hempty : Sound keptTargets removedTargets targetDependencies (fun _ => none) := fun t v hv => nomatch hv
  unfold prune at h
  split_ifs at h with hremoved
  · -- nothing is removed, and the edges stay
    cases h
    have hall : ∀ t, t ∈ allTargets.elements ↔ t ∈ keptTargets.elements := by
      intro t
      rw [hpartition.mem_iff, hremoved]
      exact or_iff_left not_mem_nil
    refine ⟨fun _ => none, hempty, fun t ht => ?_, List.Sublist.refl _, hall, fun u hu => ?_⟩
    · rw [hremoved] at ht
      cases ht
    · have hsame : ∀ e ∈ edges targetDependencies u, (if keptTargets.contains e.target then [e]
          else ((none : Option (OrderedSet ConfiguredTarget)).getD .empty).elements.map (fun reachableKeptTarget =>
            { target := reachableKeptTarget,
              reason := .impliedByTransitiveDependencyViaRemovedTargets (name e.target) })) = [e] := by
        intro e he
        exact if_pos (OrderedSet.contains_iff.mpr ((hall _).mp (hclosed u ((hall u).mpr hu) e he)))
      unfold updatedEdges
      rw [flatMap_congr hsame]
      exact (flatMap_singleton' _).symm
  · obtain ⟨reachable, hvisit, h⟩ := bind_eq_some_iff.mp h
    cases h
    obtain ⟨hsound, hknown⟩ := visitAll_spec hpartition.disjoint hvisit hempty (fun t hkey => absurd rfl hkey)
    exact ⟨reachable, hsound, hknown, hpartition.order, fun t => Iff.rfl, fun u hu => edges_result hu _⟩

/-- **What pruning does where it ends**: everything but that a kept target is listed once, which needs edges that are
apart. -/
theorem prune_spec
    {fuel : Nat}
    (h : prune keptTargets removedTargets targetDependencies name allTargets fuel = some result) :
    Acyclic removedTargets targetDependencies ∧
      (IsPruned allTargets keptTargets removedTargets targetDependencies result ↔
        ∀ u ∈ keptTargets.elements,
          Apart keptTargets removedTargets targetDependencies (edges targetDependencies u)) := by
  obtain ⟨reachable, hsound, hknown, horder, hkept, hedges⟩ := exists_reachable name hpartition hclosed h
  refine ⟨acyclic_of_acc fun t ht => (hknown t ht).acc, ?_⟩
  have hspec := fun u (hu : u ∈ keptTargets.elements) => updatedEdges_spec name hpartition.disjoint hsound hknown
    (fun e he => hpartition.mem_iff.mp (hclosed u (hpartition.order.subset hu) e he))
  constructor
  · intro hpruned u hu
    refine (hspec u hu).2.mp ?_
    rw [← hedges u hu]
    exact hpruned.once u hu
  · intro hapart
    refine ⟨horder, hkept, fun u hu v hv => ?_, fun u hu e he => ?_, fun u hu => ?_⟩
    · rw [hedges u hu, ← mem_map, (hspec u hu).1]
      exact and_iff_right hv
    · rw [hedges u hu] at he
      exact (((hspec u hu).1 e.target).mp (mem_map_of_mem he)).1
    · rw [hedges u hu]
      exact (hspec u hu).2.mpr (hapart u hu)

end

end

/-- **When pruning preserves what is reached**: exactly when the removed targets have no cycle and no two edges of a
kept target lead to the same one. -/
theorem prune_iff (name : ConfiguredTarget → String) (hpartition : Partition allTargets keptTargets removedTargets)
    (hclosed : ∀ u ∈ allTargets.elements, ∀ e ∈ edges targetDependencies u, e.target ∈ allTargets.elements) :
    (∃ result, (∃ n, ∀ fuel, n ≤ fuel →
        prune keptTargets removedTargets targetDependencies name allTargets fuel = some result) ∧
      IsPruned allTargets keptTargets removedTargets targetDependencies result) ↔
    Prunable keptTargets removedTargets targetDependencies := by
  constructor
  · rintro ⟨result, ⟨n, hn⟩, hpruned⟩
    obtain ⟨hacyclic, hiff⟩ := prune_spec name hpartition hclosed (hn n (le_refl n))
    exact ⟨hacyclic, hiff.mp hpruned⟩
  · intro hprunable
    have hclosed' : ∀ u, u ∈ keptTargets.elements ∨ u ∈ removedTargets.elements →
        ∀ e ∈ edges targetDependencies u, e.target ∈ keptTargets.elements ∨ e.target ∈ removedTargets.elements :=
      fun u hu e he => hpartition.mem_iff.mp (hclosed u (hpartition.mem_iff.mpr hu) e he)
    have hempty : Sound keptTargets removedTargets targetDependencies (fun _ => none) := fun t v hv => nomatch hv
    obtain ⟨n, reachable, hvisit⟩ := visitAll_total hpartition.disjoint hclosed'
      (fun t ht => acc_of_acyclic hprunable.acyclic ht) hempty
    obtain ⟨result, hresult⟩ : ∃ result,
        prune keptTargets removedTargets targetDependencies name allTargets n = some result := by
      unfold prune
      split_ifs
      · exact ⟨_, rfl⟩
      · rw [hvisit]
        exact ⟨_, rfl⟩
    refine ⟨result, ⟨n, fun fuel hfuel => ?_⟩, ?_⟩
    · induction fuel, hfuel using Nat.le_induction with
      | base => exact hresult
      | succ fuel _ ih => exact prune_mono name ih
    · exact (prune_spec name hpartition hclosed hresult).2.mpr hprunable.apart

end

/-- A target `0` that depends on two removed ones, which depend on a kept one each. -/
def twoRoutes (t : Nat) : Option (List (ResolvedTargetDependency Nat Unit)) :=
  match t with
  | 0 => some [⟨1, .explicit⟩, ⟨2, .explicit⟩]
  | 1 => some [⟨3, .explicit⟩]
  | 2 => some [⟨4, .explicit⟩]
  | _ => none

theorem prune_iff_twoRoutes :
    (∃ result, (∃ n, ∀ fuel, n ≤ fuel → prune ⟨[3, 4, 0], by decide⟩ ⟨[1, 2], by decide⟩ twoRoutes (fun _ => "removed")
        ⟨[3, 1, 4, 2, 0], by decide⟩ fuel = some result) ∧
      IsPruned ⟨[3, 1, 4, 2, 0], by decide⟩ ⟨[3, 4, 0], by decide⟩ ⟨[1, 2], by decide⟩ twoRoutes result) ↔
    Prunable ⟨[3, 4, 0], by decide⟩ ⟨[1, 2], by decide⟩ twoRoutes := by
  refine prune_iff (fun _ => "removed") ⟨by decide, fun t => ?_⟩ (by decide)
  simp only [mem_cons, not_mem_nil, or_false]
  omega

/-- Two removed targets that depend on each other. -/
def removedCycle (t : Nat) : Option (List (ResolvedTargetDependency Nat Unit)) :=
  match t with
  | 0 => some [⟨1, .explicit⟩]
  | 1 => some [⟨2, .explicit⟩]
  | 2 => some [⟨1, .explicit⟩]
  | _ => none

/-- The recursion does not end. -/
theorem removedCycle_not_pruned :
    ¬ ∃ result, (∃ n, ∀ fuel, n ≤ fuel → prune ⟨[0], by decide⟩ ⟨[1, 2], by decide⟩ removedCycle (fun _ => "removed")
        ⟨[2, 1, 0], by decide⟩ fuel = some result) ∧
      IsPruned ⟨[2, 1, 0], by decide⟩ ⟨[0], by decide⟩ ⟨[1, 2], by decide⟩ removedCycle result := by
  rintro ⟨result, ⟨n, hn⟩, -⟩
  have hpartition : Partition (⟨[2, 1, 0], by decide⟩ : OrderedSet Nat) ⟨[0], by decide⟩ ⟨[1, 2], by decide⟩ := by
    refine ⟨by decide, fun t => ?_⟩
    simp only [mem_cons, not_mem_nil, or_false]
    omega
  obtain ⟨hacyclic, -⟩ := prune_spec (fun _ => "removed") hpartition (by decide) (hn n (le_refl n))
  refine hacyclic 1 (by decide) (.tail (.single ⟨?_, ⟨2, .explicit⟩, ?_, rfl⟩) ⟨?_, ⟨1, .explicit⟩, ?_, rfl⟩)
  · exact mem_cons_of_mem 1 mem_cons_self
  · exact mem_cons_self
  · exact mem_cons_self
  · exact mem_cons_self

end TargetPruning

end Builra
