import Builra.Lib.Postorder
import Builra.Util.OrderedSet
import Mathlib.Data.Finset.Card

namespace Builra

open List OrderedSet Bool
open Option hiding filter_map

/-!
# `Targets.TargetDependencyResolver` — the order of the targets

`computeGraph` asks each top-level target to add its dependencies and then itself to the dependency closure.
`addDependencies` does this with two guards, the dependency path and the closure; what it visits is a
postorder traversal (`Postorder.Visits`). The dependencies that were discovered for a target are a function of
the target here. Cancellation is left out.
-/

/-- Why a target depends on another one. -/
inductive TargetDependencyReason (BuildableItem : Type) where
  | explicit
  | implicitBuildPhaseLinkage (filename : String) (buildableItem : BuildableItem) (buildPhase : String)
  | implicitBuildSetting (settingName : String) (options : List String)
  | impliedByTransitiveDependencyViaRemovedTargets (intermediateTargetName : String)

structure ResolvedTargetDependency (ConfiguredTarget BuildableItem : Type) where
  target : ConfiguredTarget
  reason : TargetDependencyReason BuildableItem

variable {ConfiguredTarget BuildableItem : Type} [DecidableEq ConfiguredTarget]

/-- Only the target is compared. -/
instance : BEq (ResolvedTargetDependency ConfiguredTarget BuildableItem) :=
  ⟨fun lhs rhs => lhs.target == rhs.target⟩

theorem ResolvedTargetDependency.beq_iff {d d' : ResolvedTargetDependency ConfiguredTarget BuildableItem} :
    (d == d') = true ↔ d.target = d'.target := by
  show (d.target == d'.target) = true ↔ _
  exact beq_iff_eq

instance : EquivBEq (ResolvedTargetDependency ConfiguredTarget BuildableItem) where
  rfl := ResolvedTargetDependency.beq_iff.mpr rfl
  symm h := ResolvedTargetDependency.beq_iff.mpr (ResolvedTargetDependency.beq_iff.mp h).symm
  trans h h' := ResolvedTargetDependency.beq_iff.mpr
    ((ResolvedTargetDependency.beq_iff.mp h).trans (ResolvedTargetDependency.beq_iff.mp h'))

/-- What was discovered for a target. The package products are the targets `lookupConfiguredTarget` gives. -/
structure DiscoveredTargetInfo (ConfiguredTarget BuildableItem : Type) where
  immediateDependencies : List (ResolvedTargetDependency ConfiguredTarget BuildableItem) := []
  packageProductDependencies : List ConfiguredTarget := []

namespace DiscoveredTargetInfo

variable (info : DiscoveredTargetInfo ConfiguredTarget BuildableItem)

/-- The dependencies in the order in which they are visited. -/
def dependencies :
    List (ResolvedTargetDependency ConfiguredTarget BuildableItem) :=
  info.immediateDependencies ++
    info.packageProductDependencies.map (fun target => { target := target, reason := .explicit })

/-- The successors of a target. -/
def successors : List ConfiguredTarget :=
  info.dependencies.map (fun dependency => dependency.target)

end DiscoveredTargetInfo

/-- What `addDependencies` writes to. -/
structure TargetDependencyResolver (ConfiguredTarget BuildableItem : Type) [DecidableEq ConfiguredTarget] where
  immediateDependenciesByConfiguredTarget : ConfiguredTarget →
    Option (OrderedSet (ResolvedTargetDependency ConfiguredTarget BuildableItem)) := fun _ => none
  dependencyClosure : OrderedSet ConfiguredTarget := .empty
  dependencyPath : OrderedSet ConfiguredTarget := .empty

namespace TargetDependencyResolver

variable (discoveredTargets : ConfiguredTarget → DiscoveredTargetInfo ConfiguredTarget BuildableItem)

/-- `recordImmediateDependency` for a list of dependencies, each of which is then visited. -/
def recordImmediateDependencies
    (visit : ConfiguredTarget → TargetDependencyResolver ConfiguredTarget BuildableItem →
      Option (TargetDependencyResolver ConfiguredTarget BuildableItem)) :
    List (ResolvedTargetDependency ConfiguredTarget BuildableItem) →
    OrderedSet (ResolvedTargetDependency ConfiguredTarget BuildableItem) →
    TargetDependencyResolver ConfiguredTarget BuildableItem →
    Option (OrderedSet (ResolvedTargetDependency ConfiguredTarget BuildableItem) ×
      TargetDependencyResolver ConfiguredTarget BuildableItem)
  | [], immediateDependencies, resolver => some (immediateDependencies, resolver)
  | dependency :: rest, immediateDependencies, resolver => do
    let (_, immediateDependencies) := immediateDependencies.append dependency
    let resolver ← visit dependency.target resolver
    recordImmediateDependencies visit rest immediateDependencies resolver

/-- `addDependencies(forConfiguredTarget:)`; none when the fuel, a bound on the depth, runs out. -/
def addDependencies : Nat → ConfiguredTarget → TargetDependencyResolver ConfiguredTarget BuildableItem →
    Option (TargetDependencyResolver ConfiguredTarget BuildableItem)
  | 0, _, _ => none
  | fuel + 1, configuredTarget, resolver => do
    let ((inserted, _), dependencyPath) := resolver.dependencyPath.append configuredTarget
    -- the target is present along this path: a cycle
    if !inserted then
      some resolver
    else
      let resolver := { resolver with dependencyPath := dependencyPath }
      if resolver.dependencyClosure.contains configuredTarget then
        -- `defer`
        let (_, dependencyPath) ← resolver.dependencyPath.removeLast
        some { resolver with dependencyPath := dependencyPath }
      else
        let info := discoveredTargets configuredTarget
        let (immediateDependencies, resolver) ←
          recordImmediateDependencies (addDependencies fuel) info.immediateDependencies .empty resolver
        let (immediateDependencies, resolver) ←
          recordImmediateDependencies (addDependencies fuel)
            (info.packageProductDependencies.map (fun target => { target := target, reason := .explicit }))
            immediateDependencies resolver
        let resolver := { resolver with
          immediateDependenciesByConfiguredTarget :=
            Function.update resolver.immediateDependenciesByConfiguredTarget configuredTarget
              (some immediateDependencies)
          dependencyClosure := (resolver.dependencyClosure.append configuredTarget).2 }
        let (_, dependencyPath) ← resolver.dependencyPath.removeLast
        some { resolver with dependencyPath := dependencyPath }

/-- The loop of `computeGraph` over the top-level targets. -/
def addTopLevelTargets (fuel : Nat) : List ConfiguredTarget →
    TargetDependencyResolver ConfiguredTarget BuildableItem →
    Option (TargetDependencyResolver ConfiguredTarget BuildableItem)
  | [], resolver => some resolver
  | topLevelConfiguredTarget :: rest, resolver => do
    let resolver ← addDependencies discoveredTargets fuel topLevelConfiguredTarget
      { resolver with dependencyPath := .empty }
    addTopLevelTargets fuel rest resolver

/-- The traversal of `computeGraph`. -/
def traverse (fuel : Nat) (topLevelTargets : List ConfiguredTarget) :
    Option (TargetDependencyResolver ConfiguredTarget BuildableItem) :=
  addTopLevelTargets discoveredTargets fuel topLevelTargets {}

/-! ## What a visit does -/

variable {discoveredTargets}

/-- The successors of a target. -/
abbrev successors (discoveredTargets : ConfiguredTarget → DiscoveredTargetInfo ConfiguredTarget BuildableItem)
    (u : ConfiguredTarget) : List ConfiguredTarget := (discoveredTargets u).successors

/-- What is recorded for a target: its distinct dependencies in order. -/
def recordedDependencies
    (discoveredTargets : ConfiguredTarget → DiscoveredTargetInfo ConfiguredTarget BuildableItem)
    (u : ConfiguredTarget) : OrderedSet (ResolvedTargetDependency ConfiguredTarget BuildableItem) :=
  OrderedSet.empty.appendContents (discoveredTargets u).dependencies

/-- The resolver after the targets in `pending` were visited. -/
structure Visited
    (discoveredTargets : ConfiguredTarget → DiscoveredTargetInfo ConfiguredTarget BuildableItem)
    (resolver : TargetDependencyResolver ConfiguredTarget BuildableItem) (pending : List ConfiguredTarget)
    (resolver' : TargetDependencyResolver ConfiguredTarget BuildableItem) : Prop where
  visits : Postorder.Visits (successors discoveredTargets) resolver.dependencyPath.elements
    resolver.dependencyClosure.elements pending resolver'.dependencyClosure.elements
  path : resolver'.dependencyPath = resolver.dependencyPath
  recorded : ∀ u ∈ resolver'.dependencyClosure.elements, u ∉ resolver.dependencyClosure.elements →
    resolver'.immediateDependenciesByConfiguredTarget u = some (recordedDependencies discoveredTargets u)
  kept : ∀ u, u ∈ resolver.dependencyClosure.elements ∨ u ∉ resolver'.dependencyClosure.elements →
    resolver'.immediateDependenciesByConfiguredTarget u = resolver.immediateDependenciesByConfiguredTarget u

variable {resolver resolver₁ resolver₂ resolver' : TargetDependencyResolver ConfiguredTarget BuildableItem}

theorem Visited.refl : Visited discoveredTargets resolver [] resolver :=
  ⟨.nil, rfl, fun _ hu hn => absurd hu hn, fun _ _ => rfl⟩

theorem Visited.trans {pending pending' : List ConfiguredTarget}
    (h : Visited discoveredTargets resolver pending resolver₁)
    (h' : Visited discoveredTargets resolver₁ pending' resolver₂) :
    Visited discoveredTargets resolver (pending ++ pending') resolver₂ := by
  have hvisits' := h'.visits
  rw [h.path] at hvisits'
  refine ⟨h.visits.append hvisits', h'.path.trans h.path, fun u hu hn => ?_, fun u hu => ?_⟩
  · by_cases h₁ : u ∈ resolver₁.dependencyClosure.elements
    · rw [h'.kept u (.inl h₁)]
      exact h.recorded u h₁ hn
    · exact h'.recorded u hu h₁
  · rcases hu with hu | hu
    · rw [h'.kept u (.inl (h.visits.sublist.subset hu)), h.kept u (.inl hu)]
    · have h₁ : u ∉ resolver₁.dependencyClosure.elements := fun h₁ => hu (h'.visits.sublist.subset h₁)
      rw [h'.kept u (.inr hu), h.kept u (.inr h₁)]

variable {visit : ConfiguredTarget → TargetDependencyResolver ConfiguredTarget BuildableItem → Option
    (TargetDependencyResolver ConfiguredTarget BuildableItem)}
  {targets : Finset ConfiguredTarget}

/-- Every dependency in a list is recorded and visited. -/
theorem recordImmediateDependencies_spec (hvisit : ∀ t resolver resolver', visit t resolver = some resolver' →
      Visited discoveredTargets resolver [t] resolver') :
    ∀ (dependencies : List (ResolvedTargetDependency ConfiguredTarget BuildableItem)) immediate immediate'
      resolver resolver',
      recordImmediateDependencies visit dependencies immediate resolver = some (immediate', resolver') →
        immediate' = immediate.appendContents dependencies ∧
          Visited discoveredTargets resolver (dependencies.map (fun d => d.target)) resolver' := by
  intro dependencies
  induction dependencies with
  | nil =>
    intro immediate immediate' resolver resolver' h
    cases h
    exact ⟨rfl, .refl⟩
  | cons dependency rest ih =>
    intro immediate immediate' resolver resolver' h
    simp only [recordImmediateDependencies, bind_eq_bind, bind_eq_some_iff] at h
    obtain ⟨resolver₁, hfirst, hrest⟩ := h
    obtain ⟨himmediate, hvisited⟩ := ih _ _ _ _ hrest
    exact ⟨himmediate, (hvisit _ _ _ hfirst).trans hvisited⟩

variable (fuel : Nat)

/-- **A call visits its target.** -/
theorem addDependencies_spec :
    ∀ (t : ConfiguredTarget) resolver resolver',
      addDependencies discoveredTargets fuel t resolver = some resolver' →
        Visited discoveredTargets resolver [t] resolver' := by
  induction fuel with
  | zero => exact fun t resolver resolver' h => absurd h (by simp [addDependencies])
  | succ fuel ih =>
    intro t resolver resolver' h
    simp only [addDependencies] at h
    cases hpath : resolver.dependencyPath.contains t with
    | true =>
      obtain ⟨hinserted, -⟩ := append_of_contains hpath
      simp only [hinserted, Bool.not_false, if_true, Option.some.injEq] at h
      obtain rfl := h
      have hmem := contains_iff.mp hpath
      exact ⟨.skip (.inl hmem) .nil, rfl, fun _ hu hn => absurd hu hn, fun _ _ => rfl⟩
    | false =>
      obtain ⟨hinserted, helements⟩ := append_of_not_contains hpath
      have hlast := append_removeLast hpath
      simp only [hinserted, Bool.not_true, Bool.false_eq_true, if_false] at h
      generalize (resolver.dependencyPath.append t).2 = path at h helements hlast
      have hnotpath : t ∉ resolver.dependencyPath.elements := by
        rw [← OrderedSet.contains_iff, hpath]
        simp
      cases hclosure : resolver.dependencyClosure.contains t with
      | true =>
        simp only [hclosure, if_true, hlast, bind_eq_bind, bind_some,
          Option.some.injEq] at h
        obtain rfl := h
        have hmem := contains_iff.mp hclosure
        exact ⟨.skip (.inr hmem) .nil, rfl, fun _ hu hn => absurd hu hn, fun _ _ => rfl⟩
      | false =>
        have hnotclosure : t ∉ resolver.dependencyClosure.elements := by
          rw [← OrderedSet.contains_iff, hclosure]
          simp
        simp only [hclosure, false_eq_true, if_false, bind_eq_bind,
          bind_eq_some_iff] at h
        obtain ⟨⟨immediate₁, resolver₁⟩, hfirst, ⟨immediate₂, resolver₂⟩, hsecond, ⟨last, path'⟩, hremove, h⟩ := h
        cases h
        obtain ⟨rfl, hvisited₁⟩ := recordImmediateDependencies_spec ih _ _ _ _ _ hfirst
        obtain ⟨rfl, hvisited₂⟩ := recordImmediateDependencies_spec ih _ _ _ _ _ hsecond
        -- both lists together are the dependencies of the target
        have hvisited := hvisited₁.trans hvisited₂
        rw [← map_append] at hvisited
        have hpath₂ : resolver₂.dependencyPath = path := hvisited.path
        rw [hpath₂, hlast] at hremove
        cases hremove
        have hinner := hvisited.visits
        rw [helements] at hinner
        have hnew : t ∉ resolver₂.dependencyClosure.elements := by
          intro hmem
          exact hinner.not_mem_path hmem hnotclosure (mem_append_right _ (mem_singleton_self t))
        have hnew' : resolver₂.dependencyClosure.contains t = false := by
          rw [← not_eq_true, OrderedSet.contains_iff]
          exact hnew
        obtain ⟨-, hadded⟩ := append_of_not_contains hnew'
        have himmediate : (empty.appendContents (discoveredTargets t).immediateDependencies).appendContents
            ((discoveredTargets t).packageProductDependencies.map
              (fun target => { target := target, reason := .explicit })) =
            recordedDependencies discoveredTargets t := by
          rw [recordedDependencies, DiscoveredTargetInfo.dependencies, appendContents,
            appendContents, appendContents, foldl_append]
        refine ⟨?_, rfl, fun u hu hn => ?_, fun u hu => ?_⟩
        · rw [hadded]
          exact .add hnotpath hnotclosure hinner .nil
        · dsimp only at hu ⊢
          by_cases heq : u = t
          · subst heq
            rw [Function.update_self, himmediate]
          · rw [Function.update_of_ne heq]
            rw [hadded] at hu
            have hu₂ : u ∈ resolver₂.dependencyClosure.elements := by simpa [heq] using hu
            exact hvisited.recorded u hu₂ hn
        · dsimp only at hu ⊢
          have heq : u ≠ t := by
            rintro rfl
            rcases hu with hu | hu
            · exact hnotclosure hu
            · exact hu (by simp [hadded])
          rw [Function.update_of_ne heq]
          refine hvisited.kept u (hu.imp id (fun hu hmem => hu ?_))
          rw [hadded]
          exact mem_append_left _ hmem

theorem addTopLevelTargets_spec :
    ∀ (topLevelTargets : List ConfiguredTarget) resolver resolver',
      resolver.dependencyPath = .empty →
      addTopLevelTargets discoveredTargets fuel topLevelTargets resolver = some resolver' →
        Visited discoveredTargets resolver topLevelTargets resolver' := by
  intro topLevelTargets
  induction topLevelTargets with
  | nil =>
    intro resolver resolver' _ h
    cases h
    exact .refl
  | cons t rest ih =>
    intro resolver resolver' hpath h
    have hsame : { resolver with dependencyPath := .empty } = resolver := by rw [← hpath]
    simp only [addTopLevelTargets, hsame, bind_eq_bind, bind_eq_some_iff] at h
    obtain ⟨resolver₁, hfirst, hrest⟩ := h
    have hvisited := addDependencies_spec fuel t _ _ hfirst
    exact hvisited.trans (ih _ _ (hvisited.path.trans hpath) hrest)

/-! ## Termination -/

theorem recordImmediateDependencies_mono
    {visit' : ConfiguredTarget → TargetDependencyResolver ConfiguredTarget BuildableItem → Option (TargetDependencyResolver ConfiguredTarget BuildableItem)}
    (hvisit : ∀ t resolver resolver', visit t resolver = some resolver' → visit' t resolver = some resolver') :
    ∀ (dependencies : List (ResolvedTargetDependency ConfiguredTarget BuildableItem)) immediate resolver result,
      recordImmediateDependencies visit dependencies immediate resolver = some result →
        recordImmediateDependencies visit' dependencies immediate resolver = some result := by
  intro dependencies
  induction dependencies with
  | nil => exact fun _ _ _ h => h
  | cons dependency rest ih =>
    intro immediate resolver result h
    simp only [recordImmediateDependencies, bind_eq_bind, bind_eq_some_iff] at h ⊢
    obtain ⟨resolver₁, hfirst, hrest⟩ := h
    exact ⟨resolver₁, hvisit _ _ _ hfirst, ih _ _ _ hrest⟩

/-- More fuel gives the same result. -/
theorem addDependencies_mono :
    ∀ (t : ConfiguredTarget) resolver resolver',
      addDependencies discoveredTargets fuel t resolver = some resolver' →
        addDependencies discoveredTargets (fuel + 1) t resolver = some resolver' := by
  induction fuel with
  | zero => exact fun _ _ _ h => absurd h (by simp [addDependencies])
  | succ fuel ih =>
    intro t resolver resolver' h
    rw [addDependencies] at h ⊢
    dsimp only at h ⊢
    split_ifs at h ⊢
    · exact h
    · exact h
    · simp only [bind_eq_bind, bind_eq_some_iff] at h ⊢
      obtain ⟨result₁, hfirst, result₂, hsecond, hrest⟩ := h
      exact ⟨result₁, recordImmediateDependencies_mono ih _ _ _ _ hfirst, result₂,
        recordImmediateDependencies_mono ih _ _ _ _ hsecond, hrest⟩

theorem addTopLevelTargets_mono :
    ∀ (topLevelTargets : List ConfiguredTarget) resolver resolver',
      addTopLevelTargets discoveredTargets fuel topLevelTargets resolver = some resolver' →
        addTopLevelTargets discoveredTargets (fuel + 1) topLevelTargets resolver = some resolver' := by
  intro topLevelTargets
  induction topLevelTargets with
  | nil => exact fun _ _ h => h
  | cons t rest ih =>
    intro resolver resolver' h
    simp only [addTopLevelTargets, bind_eq_bind, bind_eq_some_iff] at h ⊢
    obtain ⟨resolver₁, hfirst, hrest⟩ := h
    exact ⟨resolver₁, addDependencies_mono fuel t _ _ hfirst, ih _ _ hrest⟩

/-- A list of dependencies is visited if each visit from its path returns. -/
theorem recordImmediateDependencies_total {path : OrderedSet ConfiguredTarget}
    (hvisit : ∀ t ∈ targets, ∀ resolver : TargetDependencyResolver ConfiguredTarget BuildableItem,
      resolver.dependencyPath = path →
        ∃ resolver', visit t resolver = some resolver' ∧ resolver'.dependencyPath = path) :
    ∀ (dependencies : List (ResolvedTargetDependency ConfiguredTarget BuildableItem)) immediate resolver,
      (∀ d ∈ dependencies, d.target ∈ targets) → resolver.dependencyPath = path →
        ∃ immediate' resolver', recordImmediateDependencies visit dependencies immediate resolver =
          some (immediate', resolver') ∧ resolver'.dependencyPath = path := by
  intro dependencies
  induction dependencies with
  | nil => exact fun immediate resolver _ hpath => ⟨immediate, resolver, rfl, hpath⟩
  | cons dependency rest ih =>
    intro immediate resolver hmem hpath
    obtain ⟨resolver₁, hfirst, hpath₁⟩ :=
      hvisit dependency.target (hmem dependency mem_cons_self) resolver hpath
    obtain ⟨immediate', resolver', hrest, hpath'⟩ := ih (immediate.append dependency).2 resolver₁
      (fun d hd => hmem d (mem_cons_of_mem _ hd)) hpath₁
    refine ⟨immediate', resolver', ?_, hpath'⟩
    simp only [recordImmediateDependencies, hfirst, bind_eq_bind, bind_some]
    exact hrest

omit [DecidableEq ConfiguredTarget] in
theorem mem_dependencies_target {info : DiscoveredTargetInfo ConfiguredTarget BuildableItem}
    (h : ∀ v ∈ info.successors, v ∈ targets) {d : ResolvedTargetDependency ConfiguredTarget BuildableItem}
    (hd : d ∈ info.dependencies) :
    d.target ∈ targets := h d.target (mem_map_of_mem hd)

section

variable (hclosed : ∀ u ∈ targets, ∀ v ∈ successors discoveredTargets u, v ∈ targets)
include hclosed

/-- **The recursion ends**: the targets on the path are distinct, and there are finitely many. -/
theorem addDependencies_total
    (fuel : Nat) :
    ∀ t ∈ targets, ∀ resolver : TargetDependencyResolver ConfiguredTarget BuildableItem,
      (∀ u ∈ resolver.dependencyPath.elements, u ∈ targets) →
      targets.card < fuel + resolver.dependencyPath.elements.length →
        ∃ resolver', addDependencies discoveredTargets fuel t resolver = some resolver' := by
  induction fuel with
  | zero =>
    intro t _ resolver hpath hcard
    -- the path would be longer than there are targets
    have hle : resolver.dependencyPath.elements.toFinset.card ≤ targets.card :=
      Finset.card_le_card (fun u hu => hpath u (mem_toFinset.mp hu))
    rw [toFinset_card_of_nodup (nodup _)] at hle
    omega
  | succ fuel ih =>
    intro t ht resolver hpath hcard
    simp only [addDependencies]
    cases hcontains : resolver.dependencyPath.contains t with
    | true =>
      obtain ⟨hinserted, -⟩ := append_of_contains hcontains
      simp [hinserted]
    | false =>
      obtain ⟨hinserted, helements⟩ := append_of_not_contains hcontains
      have hlast := append_removeLast hcontains
      simp only [hinserted, Bool.not_true, Bool.false_eq_true, if_false]
      generalize (resolver.dependencyPath.append t).2 = path at helements hlast
      split_ifs
      · simp [hlast]
      · have hvisit : ∀ t ∈ targets, ∀ resolver : TargetDependencyResolver ConfiguredTarget BuildableItem,
            resolver.dependencyPath = path → ∃ resolver',
              addDependencies discoveredTargets fuel t resolver = some resolver' ∧
                resolver'.dependencyPath = path := by
          intro t' ht' resolver' heq
          obtain ⟨resolver₁, h₁⟩ := ih t' ht' resolver' (by
            rw [heq, helements]
            intro u hu
            rcases mem_append.mp hu with hu | hu
            · exact hpath u hu
            · rw [mem_singleton.mp hu]
              exact ht) (by
            rw [heq, helements, length_append, length_singleton]
            omega)
          exact ⟨resolver₁, h₁, (addDependencies_spec fuel t' _ _ h₁).path.trans heq⟩
        have hmem : ∀ d ∈ (discoveredTargets t).dependencies, d.target ∈ targets :=
          fun d hd => mem_dependencies_target (hclosed t ht) hd
        obtain ⟨immediate₁, resolver₁, hfirst, hpath₁⟩ := recordImmediateDependencies_total hvisit
          (discoveredTargets t).immediateDependencies .empty { resolver with dependencyPath := path }
          (fun d hd => hmem d (mem_append_left _ hd)) rfl
        obtain ⟨immediate₂, resolver₂, hsecond, hpath₂⟩ := recordImmediateDependencies_total hvisit
          ((discoveredTargets t).packageProductDependencies.map
            (fun target => { target := target, reason := .explicit })) immediate₁ resolver₁
          (fun d hd => hmem d (mem_append_right _ hd)) hpath₁
        simp [hfirst, hsecond, hpath₂, hlast]

theorem addTopLevelTargets_total
    {fuel : Nat} (hfuel : targets.card < fuel) :
    ∀ (topLevelTargets : List ConfiguredTarget), (∀ t ∈ topLevelTargets, t ∈ targets) →
      ∀ resolver : TargetDependencyResolver ConfiguredTarget BuildableItem,
        ∃ resolver', addTopLevelTargets discoveredTargets fuel topLevelTargets resolver = some resolver' := by
  intro topLevelTargets
  induction topLevelTargets with
  | nil => exact fun _ resolver => ⟨resolver, rfl⟩
  | cons t rest ih =>
    intro hmem resolver
    obtain ⟨resolver₁, hfirst⟩ := addDependencies_total hclosed fuel t (hmem t mem_cons_self)
      { resolver with dependencyPath := .empty } (fun u hu => absurd hu not_mem_nil) (by
        show targets.card < fuel + 0
        omega)
    obtain ⟨resolver', hrest⟩ := ih (fun u hu => hmem u (mem_cons_of_mem _ hu)) resolver₁
    refine ⟨resolver', ?_⟩
    simp only [addTopLevelTargets, hfirst, bind_eq_bind, bind_some]
    exact hrest

end

/-! ## The order of the targets -/

/-- The distinct dependencies have the distinct targets. -/
theorem map_target_eraseDups (dependencies : List (ResolvedTargetDependency ConfiguredTarget BuildableItem)) :
    dependencies.eraseDups.map (fun d => d.target) = (dependencies.map (fun d => d.target)).eraseDups := by
  induction hn : dependencies.length using Nat.strong_induction_on generalizing dependencies with
  | _ n ih =>
    cases dependencies with
    | nil => rfl
    | cons d rest =>
      have hlt : (rest.filter (fun d' => !d' == d)).length < n := by
        have hle := length_filter_le (fun d' => !d' == d) rest
        rw [length_cons] at hn
        omega
      rw [eraseDups_cons, map_cons, map_cons, eraseDups_cons, ih _ hlt _ rfl,
        filter_map]
      rfl

theorem elements_recordedDependencies (u : ConfiguredTarget) :
    (recordedDependencies discoveredTargets u).elements.map (fun d => d.target) =
      (successors discoveredTargets u).eraseDups := by
  rw [recordedDependencies, OrderedSet.elements_appendContents, successors, DiscoveredTargetInfo.successors,
    ← map_target_eraseDups]
  simp [OrderedSet.empty, OrderedSet.contains, OrderedSet.firstIndex]

/-- **The order of the targets.** With finitely many targets the traversal ends. The closure then has exactly
    the targets reached from the top-level ones, each once; the distinct successors of each are recorded in
    order; and a successor that does not stand before the target reaches it. -/
theorem traverse_order
    (discoveredTargets : ConfiguredTarget → DiscoveredTargetInfo ConfiguredTarget BuildableItem)
    (targets : Finset ConfiguredTarget)
    (hclosed : ∀ u ∈ targets, ∀ v ∈ successors discoveredTargets u, v ∈ targets)
    (topLevelTargets : List ConfiguredTarget) (htop : ∀ t ∈ topLevelTargets, t ∈ targets) :
    ∃ resolver : TargetDependencyResolver ConfiguredTarget BuildableItem,
      (∀ fuel, targets.card < fuel → traverse discoveredTargets fuel topLevelTargets = some resolver) ∧
      resolver.dependencyClosure.elements.Nodup ∧
      (∀ v, v ∈ resolver.dependencyClosure.elements ↔
        ∃ t ∈ topLevelTargets, Postorder.Reaches (successors discoveredTargets) t v) ∧
      (∀ u ∈ resolver.dependencyClosure.elements, ∃ recorded,
        resolver.immediateDependenciesByConfiguredTarget u = some recorded ∧
          recorded.elements.map (fun d => d.target) = (successors discoveredTargets u).eraseDups) ∧
      ∀ u ∈ resolver.dependencyClosure.elements, ∀ v ∈ successors discoveredTargets u,
        Postorder.Before resolver.dependencyClosure.elements v u ∨
          Postorder.Reaches (successors discoveredTargets) v u := by
  obtain ⟨resolver, hleast⟩ := addTopLevelTargets_total hclosed (Nat.lt_succ_self targets.card)
    topLevelTargets htop {}
  have hvisited := addTopLevelTargets_spec _ _ _ _ rfl hleast
  have hvisits : Postorder.Visits (successors discoveredTargets) [] [] topLevelTargets
      resolver.dependencyClosure.elements := hvisited.visits
  refine ⟨resolver, fun fuel hfuel => ?_, nodup _, fun v => hvisits.mem_iff,
    fun u hu => ⟨_, hvisited.recorded u hu not_mem_nil, elements_recordedDependencies u⟩,
    fun u hu v hv => hvisits.before_or_cycle hu hv⟩
  induction fuel, (Nat.succ_le_of_lt hfuel) using Nat.le_induction with
  | base => exact hleast
  | succ fuel hle ih => exact addTopLevelTargets_mono fuel _ _ _ (ih (Nat.lt_of_succ_le hle))

/-- Three targets on a cycle, one of which has a dependency outside, with two top-level targets. -/
def cyclicTargets (target : Nat) : DiscoveredTargetInfo Nat Unit :=
  match target with
  | 0 => { immediateDependencies := [⟨1, .explicit⟩, ⟨3, .explicit⟩, ⟨1, .explicit⟩] }
  | 1 => { packageProductDependencies := [2] }
  | 2 => { immediateDependencies := [⟨0, .explicit⟩] }
  | _ => {}

theorem traverse_order_cyclic :
    ∃ resolver : TargetDependencyResolver Nat Unit,
      (∀ fuel, 4 < fuel → traverse cyclicTargets fuel [1, 3] = some resolver) ∧
      resolver.dependencyClosure.elements.Nodup := by
  obtain ⟨resolver, hfuel, hnodup, -⟩ := traverse_order cyclicTargets {0, 1, 2, 3} (by decide) [1, 3] (by decide)
  exact ⟨resolver, hfuel, hnodup⟩

example : (traverse cyclicTargets 5 [1, 3]).map (fun resolver => resolver.dependencyClosure.elements) =
    some [3, 0, 2, 1] := by decide

end TargetDependencyResolver

end Builra
