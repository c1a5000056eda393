import Builra.Lib.Fallible
import Builra.Targets.TargetDependencyResolver

namespace Builra

open List OrderedSet
open Option hiding any_eq_true filter_filter map_id

/-!
# `Targets.SpecializationReduction` — one specialization for each platform

`computeGraph` removes the targets of a platform beside the only one with a suffixed SDK, and puts this one into the
dependency lists where a removed target is named. The list is an ordered set, and inserting a target that it has
already does nothing; what is removed then is the dependency behind.
-/

/-- The targets and what they depend on. The dictionary is the list of its entries. -/
structure TargetGraph (ConfiguredTarget BuildableItem : Type) [DecidableEq ConfiguredTarget] where
  allTargets : OrderedSet ConfiguredTarget
  immediateDependenciesByConfiguredTarget :
    List (ConfiguredTarget × OrderedSet (ResolvedTargetDependency ConfiguredTarget BuildableItem))

namespace TargetGraph

variable {ConfiguredTarget BuildableItem : Type} [DecidableEq ConfiguredTarget]

/-! ## The source -/

/-- A reference to the removed target is replaced, if there is one. -/
def fixUp (suffixedTarget configuredTarget : ConfiguredTarget)
    (dependencies : OrderedSet (ResolvedTargetDependency ConfiguredTarget BuildableItem)) :
    Option (OrderedSet (ResolvedTargetDependency ConfiguredTarget BuildableItem)) :=
  match dependencies.elements.findIdx? (fun dependency => dependency.target == configuredTarget) with
  | some index => do
    let dependency ← dependencies.elements[index]?
    let (_, mutableDependencies) ←
      dependencies.insert { target := suffixedTarget, reason := dependency.reason } index
    let (_, mutableDependencies) ← mutableDependencies.remove (index + 1)
    some mutableDependencies
  | none => some dependencies

variable (suffixedTarget : ConfiguredTarget)

/-- One of the targets is removed, unless it is the one with the suffixed SDK. -/
def removeTarget (graph : TargetGraph ConfiguredTarget BuildableItem)
    (configuredTarget : ConfiguredTarget) : Option (TargetGraph ConfiguredTarget BuildableItem) :=
  match graph.allTargets.firstIndex configuredTarget with
  | some index =>
    if configuredTarget ≠ suffixedTarget then do
      let (_, allTargets) ← graph.allTargets.remove index
      let immediateDependenciesByConfiguredTarget ← graph.immediateDependenciesByConfiguredTarget.mapM
        (fun (dependee, dependencies) => (fixUp suffixedTarget configuredTarget dependencies).map (Prod.mk dependee))
      some { allTargets, immediateDependenciesByConfiguredTarget }
    else some graph
  | none => some graph

variable (configuredTargets : List ConfiguredTarget)

variable (graph : TargetGraph ConfiguredTarget BuildableItem)

def removeTargets
     : Option (TargetGraph ConfiguredTarget BuildableItem) :=
  configuredTargets.foldlM (removeTarget suffixedTarget) graph

/-- The configured targets of a platform are reduced to the one with a suffixed SDK, if there is exactly one and no
other is incompatible with its parameters. -/
def reduce (usesSuffixedSDK : ConfiguredTarget → Bool) (isCompatible : ConfiguredTarget → ConfiguredTarget → Bool)
    (configuredTargets : List ConfiguredTarget) (graph : TargetGraph ConfiguredTarget BuildableItem) :
    Option (TargetGraph ConfiguredTarget BuildableItem) :=
  if configuredTargets.length = 1 then some graph
  else
    match configuredTargets.filter usesSuffixedSDK with
    | [suffixedTarget] =>
      let incompatibleTargets := configuredTargets.filter
        (fun configuredTarget => configuredTarget ≠ suffixedTarget && !isCompatible suffixedTarget configuredTarget)
      if incompatibleTargets.length = 0 then removeTargets suffixedTarget configuredTargets graph else some graph
    | _ => some graph

/-! ## What is meant -/

/-- The target is removed with the others of its group. -/
def IsRemoved
     (t : ConfiguredTarget) : Prop :=
  t ∈ configuredTargets ∧ t ≠ suffixedTarget ∧ t ∈ graph.allTargets.elements

instance (suffixedTarget : ConfiguredTarget) (configuredTargets : List ConfiguredTarget)
    (graph : TargetGraph ConfiguredTarget BuildableItem) (t : ConfiguredTarget) :
    Decidable (IsRemoved suffixedTarget configuredTargets graph t) :=
  inferInstanceAs (Decidable (t ∈ configuredTargets ∧ t ≠ suffixedTarget ∧ t ∈ graph.allTargets.elements))

variable (removed : ConfiguredTarget → Prop)

variable (dependencies : OrderedSet (ResolvedTargetDependency ConfiguredTarget BuildableItem))

/-- The list with the removed targets replaced, and without duplicates. -/
def replaced [DecidablePred removed]
     :
    OrderedSet (ResolvedTargetDependency ConfiguredTarget BuildableItem) :=
  OrderedSet.empty.appendContents (dependencies.elements.map (fun dependency =>
    if removed dependency.target then { dependency with target := suffixedTarget } else dependency))

/-- The list names one of the removed targets only, and not the one that replaces it; or none. -/
def Replaceable
     : Prop :=
  ∀ d ∈ dependencies.elements, removed d.target →
    ∀ d' ∈ dependencies.elements, (removed d'.target → d'.target = d.target) ∧ d'.target ≠ suffixedTarget

/-! ## One list -/

section

variable {suffixedTarget configuredTarget : ConfiguredTarget}
  {dependencies dependencies' : OrderedSet (ResolvedTargetDependency ConfiguredTarget BuildableItem)}

/-- The list names the target. -/
def Names (dependencies : OrderedSet (ResolvedTargetDependency ConfiguredTarget BuildableItem))
    (t : ConfiguredTarget) : Prop := ∃ d ∈ dependencies.elements, d.target = t

variable {t : ConfiguredTarget} {before behind : List (ResolvedTargetDependency ConfiguredTarget BuildableItem)}
  {d : ResolvedTargetDependency ConfiguredTarget BuildableItem} {removed : List ConfiguredTarget}

theorem contains_iff_names {reason : TargetDependencyReason BuildableItem} :
    dependencies.contains { target := t, reason } = true ↔ Names dependencies t := by
  rw [OrderedSet.contains, OrderedSet.firstIndex, List.findIdx?_isSome, any_eq_true]
  refine exists_congr fun d => and_congr_right fun _ => ?_
  exact ResolvedTargetDependency.beq_iff

theorem fixUp_of_not_names (h : ¬ Names dependencies configuredTarget) :
    fixUp suffixedTarget configuredTarget dependencies = some dependencies := by
  have hnone : dependencies.elements.findIdx? (fun d => d.target == configuredTarget) = none := by
    rw [findIdx?_eq_none_iff]
    intro d hd
    rw [beq_eq_false_iff_ne]
    exact fun heq => h ⟨d, hd, heq⟩
  unfold fixUp
  rw [hnone]

section

variable (h : Names dependencies configuredTarget)
include h

/-- A list that names a target, split where it does. -/
theorem exists_split :
    ∃ before d behind, dependencies.elements = before ++ d :: behind ∧ d.target = configuredTarget ∧
      dependencies.elements.findIdx? (fun d => d.target == configuredTarget) = some before.length := by
  obtain ⟨d, hd, heq⟩ := h
  have hsome : (dependencies.elements.findIdx? (fun d => d.target == configuredTarget)).isSome = true := by
    rw [List.findIdx?_isSome, any_eq_true]
    exact ⟨d, hd, beq_iff_eq.mpr heq⟩
  obtain ⟨i, hi⟩ := isSome_iff_exists.mp hsome
  obtain ⟨before, d', behind, hsplit, hlength, hd', -⟩ := Positions.findIdx?_eq_some.mp hi
  rw [← hlength] at hi
  exact ⟨before, d', behind, hsplit, beq_iff_eq.mp hd', hi⟩

/-- The target that replaces it is not there: the reference is replaced. -/
theorem fixUp_of_not_suffixed
    (hsuffixed : ¬ Names dependencies suffixedTarget) :
    ∃ before d behind dependencies', dependencies.elements = before ++ d :: behind ∧
      d.target = configuredTarget ∧
      fixUp suffixedTarget configuredTarget dependencies = some dependencies' ∧
      dependencies'.elements = before ++ { d with target := suffixedTarget } :: behind := by
  obtain ⟨before, d, behind, hsplit, hd, hindex⟩ := exists_split h
  have hcontains : dependencies.contains { target := suffixedTarget, reason := d.reason } = false := by
    rw [← Bool.not_eq_true, contains_iff_names]
    exact hsuffixed
  obtain ⟨returned, inserted, hinsert, helements⟩ := insert_of_not_contains hcontains hsplit
  have hlength : before.length + 1 = (before ++ [{ d with target := suffixedTarget }]).length := by
    rw [length_append, length_singleton]
  have hassoc : inserted.elements = (before ++ [{ d with target := suffixedTarget }]) ++ d :: behind := by
    rw [append_assoc]
    exact helements
  obtain ⟨dependencies', hremove, hresult⟩ := remove_length hassoc
  refine ⟨before, d, behind, dependencies', hsplit, hd, ?_, ?_⟩
  · unfold fixUp
    rw [hindex]
    dsimp only
    rw [hsplit, Positions.getElem?_length]
    simp only [bind_eq_bind, bind_some]
    rw [hinsert]
    simp only [bind_some]
    rw [hlength, hremove]
    rfl
  · rw [hresult, append_assoc]
    rfl

/-- The target that replaces it is there already: the removed one stays. -/
theorem fixUp_of_suffixed (hsuffixed : Names dependencies suffixedTarget)
    (hfix : fixUp suffixedTarget configuredTarget dependencies = some dependencies') :
    Names dependencies' configuredTarget := by
  obtain ⟨before, d, behind, hsplit, hd, hindex⟩ := exists_split h
  have hcontains : dependencies.contains { target := suffixedTarget, reason := d.reason } = true :=
    contains_iff_names.mpr hsuffixed
  obtain ⟨returned, hinsert⟩ := insert_of_contains hcontains before.length
  unfold fixUp at hfix
  rw [hindex] at hfix
  dsimp only at hfix
  rw [hsplit, Positions.getElem?_length] at hfix
  simp only [bind_eq_bind, bind_some] at hfix
  rw [hinsert] at hfix
  simp only [bind_some] at hfix
  -- what is removed is the dependency behind
  cases behind with
  | nil =>
    have hnone : dependencies.remove (before.length + 1) = none := by
      refine map_eq_none_iff.mpr ?_
      rw [hsplit, getElem?_eq_none (by rw [length_append, length_singleton])]
    rw [hnone] at hfix
    cases hfix
  | cons next behind =>
    have hsplit' : dependencies.elements = (before ++ [d]) ++ next :: behind := by
      rw [hsplit, append_assoc]
      rfl
    obtain ⟨removed, hremove, hresult⟩ := remove_length hsplit'
    have hlength : before.length + 1 = (before ++ [d]).length := by
      rw [length_append, length_singleton]
    rw [hlength, hremove] at hfix
    cases hfix
    refine ⟨d, ?_, hd⟩
    rw [hresult]
    exact mem_append_left _ (mem_append_right _ (mem_singleton_self d))

end

/-- What a list names is named by the list with another entry, but for what the entry names. -/
theorem names_replace {d' : ResolvedTargetDependency ConfiguredTarget BuildableItem}
    (h : dependencies.elements = before ++ d :: behind) (h' : dependencies'.elements = before ++ d' :: behind)
    (ht : Names dependencies t) : t = d.target ∨ Names dependencies' t := by
  obtain ⟨e, he, rfl⟩ := ht
  rw [h] at he
  unfold Names
  rw [h']
  rcases mem_append.mp he with he | he
  · exact .inr ⟨e, mem_append_left _ he, rfl⟩
  · rcases mem_cons.mp he with rfl | he
    · exact .inl rfl
    · exact .inr ⟨e, mem_append_right _ (mem_cons_of_mem _ he), rfl⟩

theorem names_suffixed (h : dependencies.elements = before ++ { d with target := suffixedTarget } :: behind) :
    Names dependencies suffixedTarget := by
  refine ⟨{ d with target := suffixedTarget }, ?_, rfl⟩
  rw [h]
  exact mem_append_right _ mem_cons_self

/-- The list after the removal of some targets. -/
def fixUps (suffixedTarget : ConfiguredTarget) (removed : List ConfiguredTarget)
    (dependencies : OrderedSet (ResolvedTargetDependency ConfiguredTarget BuildableItem)) :
    Option (OrderedSet (ResolvedTargetDependency ConfiguredTarget BuildableItem)) :=
  removed.foldlM (fun dependencies configuredTarget => fixUp suffixedTarget configuredTarget dependencies) dependencies

theorem fixUps_cons {c : ConfiguredTarget} {cs : List ConfiguredTarget} :
    fixUps suffixedTarget (c :: cs) dependencies = (fixUp suffixedTarget c dependencies).bind (fixUps suffixedTarget cs) :=
  foldlM_cons

/-- **No reference stays only where there was at most one to replace.** A target that could not be replaced stays in
the list, since later removals take away what stands behind other ones. -/
theorem eq_or_of_fixUps {rest : List ConfiguredTarget} (hnodup : rest.Nodup) (hsub : rest ⊆ removed)
    (hrun : fixUps suffixedTarget rest dependencies = some dependencies')
    (hclean : ∀ c ∈ removed, ¬ Names dependencies' c) :
    (∀ c ∈ removed, ¬ Names dependencies c) ∨
      ∃ c ∈ rest, (∀ c' ∈ removed, Names dependencies c' → c' = c) ∧ ¬ Names dependencies suffixedTarget := by
  induction rest generalizing dependencies with
  | nil =>
    obtain rfl : dependencies = dependencies' := Option.some.inj hrun
    exact .inl hclean
  | cons c rest ih =>
    obtain ⟨hc, hnodup'⟩ := nodup_cons.mp hnodup
    obtain ⟨hcmem, hsub'⟩ := cons_subset.mp hsub
    rw [fixUps_cons] at hrun
    obtain ⟨dependencies₁, hfix, hrest⟩ := bind_eq_some_iff.mp hrun
    have hih := ih hnodup' hsub' hrest
    by_cases hnames : Names dependencies c
    · by_cases hsuffixed : Names dependencies suffixedTarget
      · -- the target stays, and it is not removed again
        have hstays := fixUp_of_suffixed hnames hsuffixed hfix
        rcases hih with hnone | ⟨c', hc', honly, -⟩
        · exact absurd hstays (hnone c hcmem)
        · rw [honly c hcmem hstays] at hc
          exact absurd hc' hc
      · obtain ⟨before, d, behind, dependencies₂, hsplit, rfl, hfix', hsplit'⟩ :=
          fixUp_of_not_suffixed hnames hsuffixed
        cases hfix.symm.trans hfix'
        rcases hih with hnone | ⟨c', -, -, hno⟩
        · refine .inr ⟨d.target, mem_cons_self, fun c' hc' hnames' => ?_, hsuffixed⟩
          exact (names_replace hsplit hsplit' hnames').resolve_right (hnone c' hc')
        · exact absurd (names_suffixed hsplit') hno
    · rw [fixUp_of_not_names hnames] at hfix
      cases hfix
      rcases hih with hnone | ⟨c', hc', honly, hno⟩
      · exact .inl hnone
      · exact .inr ⟨c', mem_cons_of_mem _ hc', honly, hno⟩

theorem fixUps_of_not_names (h : ∀ c ∈ removed, ¬ Names dependencies c) :
    fixUps suffixedTarget removed dependencies = some dependencies := by
  induction removed with
  | nil => rfl
  | cons c removed ih =>
    obtain ⟨hc, hremoved⟩ := forall_mem_cons.mp h
    rw [fixUps_cons, fixUp_of_not_names hc]
    exact ih hremoved

theorem fixUps_append {removed' : List ConfiguredTarget} :
    fixUps suffixedTarget (removed ++ removed') dependencies =
      (fixUps suffixedTarget removed dependencies).bind (fixUps suffixedTarget removed') :=
  foldlM_append

/-- A list that is changed to one of different targets is that one. -/
theorem replaced_eq {removed : ConfiguredTarget → Prop} [DecidablePred removed]
    (h : dependencies.elements.map (fun d => if removed d.target then { d with target := suffixedTarget } else d) =
      dependencies'.elements) : replaced suffixedTarget removed dependencies = dependencies' := by
  refine ext_elements ?_
  unfold replaced
  rw [h]
  exact appendContents_of_pairwise dependencies'.unique

/-- **One reference is replaced.** -/
theorem fixUps_of_replaceable (hnodup : removed.Nodup) (hsuffixed : suffixedTarget ∉ removed)
    (h : Replaceable suffixedTarget (· ∈ removed) dependencies) :
    fixUps suffixedTarget removed dependencies = some (replaced suffixedTarget (· ∈ removed) dependencies) := by
  by_cases hnone : ∀ c ∈ removed, ¬ Names dependencies c
  · rw [fixUps_of_not_names hnone]
    refine congrArg some (replaced_eq ?_).symm
    refine (map_congr_left fun d hd => ?_).trans (map_id _)
    exact if_neg (fun hremoved => hnone d.target hremoved ⟨d, hd, rfl⟩)
  · simp only [not_forall, not_not] at hnone
    obtain ⟨c, hc, hnames⟩ := hnone
    have honly : ∀ c' ∈ removed, Names dependencies c' → c' = c := by
      rintro c' hc' ⟨d', hd', rfl⟩
      obtain ⟨d, hd, rfl⟩ := hnames
      exact (h d hd hc d' hd').1 hc'
    have hno : ¬ Names dependencies suffixedTarget := by
      rintro ⟨d', hd', heq⟩
      obtain ⟨d, hd, rfl⟩ := hnames
      exact (h d hd hc d' hd').2 heq
    obtain ⟨before, d, behind, dependencies', hsplit, rfl, hfix, hsplit'⟩ := fixUp_of_not_suffixed hnames hno
    -- of the removals, only the one of this target changes the list
    obtain ⟨first, rest, rfl⟩ := append_of_mem hc
    obtain ⟨-, hnodup', hdisjoint⟩ := nodup_append.mp hnodup
    have hfirst : ∀ c' ∈ first, ¬ Names dependencies c' := by
      intro c' hc' hnames'
      obtain rfl := honly c' (mem_append_left _ hc') hnames'
      exact hdisjoint _ hc' _ mem_cons_self rfl
    have hrest : ∀ c' ∈ rest, ¬ Names dependencies' c' := by
      intro c' hc' hnames'
      have hmem : c' ∈ first ++ d.target :: rest := mem_append_right _ (mem_cons_of_mem _ hc')
      rcases names_replace hsplit' hsplit hnames' with rfl | hnames'
      · exact hsuffixed hmem
      · rw [honly c' hmem hnames'] at hc'
        exact (nodup_cons.mp hnodup').1 hc'
    rw [fixUps_append, fixUps_of_not_names hfirst, bind_some, fixUps_cons, hfix, bind_some,
      fixUps_of_not_names hrest]
    refine congrArg some (replaced_eq ?_).symm
    have hunique := dependencies.unique
    rw [hsplit] at hunique
    obtain ⟨-, hbehind, hbefore⟩ := pairwise_append.mp hunique
    -- the other dependencies have other targets
    have hother : ∀ e ∈ dependencies.elements, e.target ≠ d.target → e.target ∉ first ++ d.target :: rest :=
      fun e he hne hmem => hne (honly e.target hmem ⟨e, he, rfl⟩)
    rw [hsplit, hsplit', map_append, map_cons, if_pos hc]
    congr 1
    · refine (map_congr_left fun e he => if_neg ?_).trans (map_id _)
      refine hother e (hsplit ▸ mem_append_left _ he) fun heq => ?_
      have hne := hbefore e he d mem_cons_self
      rw [ResolvedTargetDependency.beq_iff.mpr heq] at hne
      cases hne
    · congr 1
      refine (map_congr_left fun e he => if_neg ?_).trans (map_id _)
      refine hother e (hsplit ▸ mem_append_right _ (mem_cons_of_mem _ he)) fun heq => ?_
      have hne := (pairwise_cons.mp hbehind).1 e he
      rw [ResolvedTargetDependency.beq_iff.mpr heq.symm] at hne
      cases hne

/-- The replacement names no removed target. -/
theorem not_names_replaced {removed : ConfiguredTarget → Prop} [DecidablePred removed]
    (hsuffixed : ¬ removed suffixedTarget) {c : ConfiguredTarget} (hc : removed c) :
    ¬ Names (replaced suffixedTarget removed dependencies) c := by
  rintro ⟨d, hd, rfl⟩
  rcases mem_of_mem_appendContents hd with hd | hd
  · cases hd
  · obtain ⟨e, -, rfl⟩ := mem_map.mp hd
    split_ifs at hc with he
    · exact hsuffixed hc
    · exact he hc

/-- **When a list is fixed up**: when it names one removed target at most, and not the one that replaces it. -/
theorem fixUps_iff (hnodup : removed.Nodup) (hsuffixed : suffixedTarget ∉ removed) :
    fixUps suffixedTarget removed dependencies = some (replaced suffixedTarget (· ∈ removed) dependencies) ↔
      Replaceable suffixedTarget (· ∈ removed) dependencies := by
  refine ⟨fun h => ?_, fixUps_of_replaceable hnodup hsuffixed⟩
  intro d hd hremoved d' hd'
  rcases eq_or_of_fixUps hnodup (List.Subset.refl _) h (fun c hc => not_names_replaced hsuffixed hc) with
    hnone | ⟨c, -, honly, hno⟩
  · exact absurd ⟨d, hd, rfl⟩ (hnone d.target hremoved)
  · refine ⟨fun hremoved' => ?_, fun heq => hno ⟨d', hd', heq⟩⟩
    exact (honly _ hremoved' ⟨d', hd', rfl⟩).trans (honly _ hremoved ⟨d, hd, rfl⟩).symm

end

/-! ## All lists -/

section

variable {suffixedTarget : ConfiguredTarget}

/-- The targets of the group that are removed, in the order in which they are. -/
def removedTargets (suffixedTarget : ConfiguredTarget) :
    List ConfiguredTarget → List ConfiguredTarget → List ConfiguredTarget
  | [], _ => []
  | t :: rest, allTargets =>
    if t ∈ allTargets ∧ t ≠ suffixedTarget then
      t :: removedTargets suffixedTarget rest (allTargets.filter (· ≠ t))
    else removedTargets suffixedTarget rest allTargets

variable {t : ConfiguredTarget}

theorem mem_removedTargets {group allTargets : List ConfiguredTarget} :
    t ∈ removedTargets suffixedTarget group allTargets ↔ t ∈ group ∧ t ≠ suffixedTarget ∧ t ∈ allTargets := by
  induction group generalizing allTargets with
  | nil => exact iff_of_false not_mem_nil (fun h => not_mem_nil h.1)
  | cons u rest ih =>
    rw [removedTargets, mem_cons]
    split_ifs with hu
    · rw [mem_cons, ih, mem_filter, decide_eq_true_iff]
      constructor
      · rintro (rfl | ⟨hrest, hne, hmem, -⟩)
        · exact ⟨.inl rfl, hu.2, hu.1⟩
        · exact ⟨.inr hrest, hne, hmem⟩
      · rintro ⟨rfl | hrest, hne, hmem⟩
        · exact .inl rfl
        · by_cases heq : t = u
          · exact .inl heq
          · exact .inr ⟨hrest, hne, hmem, heq⟩
    · rw [ih]
      constructor
      · rintro ⟨hrest, hne, hmem⟩
        exact ⟨.inr hrest, hne, hmem⟩
      · rintro ⟨rfl | hrest, hne, hmem⟩
        · exact absurd ⟨hmem, hne⟩ hu
        · exact ⟨hrest, hne, hmem⟩

theorem nodup_removedTargets (group allTargets : List ConfiguredTarget) :
    (removedTargets suffixedTarget group allTargets).Nodup := by
  induction group generalizing allTargets with
  | nil => exact nodup_nil
  | cons u rest ih =>
    rw [removedTargets]
    split_ifs with hu
    · refine nodup_cons.mpr ⟨fun hmem => ?_, ih _⟩
      have hfilter := (mem_removedTargets.mp hmem).2.2
      rw [mem_filter, decide_eq_true_iff] at hfilter
      exact hfilter.2 rfl
    · exact ih allTargets

/-- The targets without some. -/
def without (allTargets : OrderedSet ConfiguredTarget) (removed : List ConfiguredTarget) :
    OrderedSet ConfiguredTarget :=
  ⟨allTargets.elements.filter (· ∉ removed), allTargets.unique.sublist filter_sublist⟩

variable {graph : TargetGraph ConfiguredTarget BuildableItem}

/-- A target is removed from all of them. -/
theorem removeTarget_of_mem (ht : t ∈ graph.allTargets.elements)
    (hne : t ≠ suffixedTarget) :
    removeTarget suffixedTarget graph t =
      (graph.immediateDependenciesByConfiguredTarget.mapM
        (fun entry => (fixUp suffixedTarget t entry.2).map (Prod.mk entry.1))).map
        (fun immediate => ⟨without graph.allTargets [t], immediate⟩) := by
  obtain ⟨index, hindex⟩ := isSome_iff_exists.mp (contains_iff.mpr ht)
  obtain ⟨before, x, behind, hsplit, rfl, hx, -⟩ := Positions.findIdx?_eq_some.mp hindex
  obtain rfl := beq_iff_eq.mp hx
  obtain ⟨allTargets, hremove, helements⟩ := remove_length hsplit
  have hwithout : allTargets = without graph.allTargets [x] := by
    refine ext_elements ?_
    have hnodup := graph.allTargets.nodup
    rw [hsplit, nodup_append] at hnodup
    obtain ⟨-, hbehind, hbefore⟩ := hnodup
    show _ = graph.allTargets.elements.filter (· ∉ [x])
    rw [helements, hsplit, filter_append, filter_cons_of_neg (by simp)]
    congr 1
    · refine (filter_eq_self.mpr fun y hy => ?_).symm
      rw [decide_eq_true_iff, mem_singleton]
      exact hbefore y hy x mem_cons_self
    · refine (filter_eq_self.mpr fun y hy => ?_).symm
      rw [decide_eq_true_iff, mem_singleton]
      rintro rfl
      exact (nodup_cons.mp hbehind).1 hy
  unfold removeTarget
  rw [hindex]
  dsimp only
  rw [if_pos hne, hremove, hwithout, map_eq_bind]
  rfl

theorem removeTarget_of_not
    (h : ¬ (t ∈ graph.allTargets.elements ∧ t ≠ suffixedTarget)) :
    removeTarget suffixedTarget graph t = some graph := by
  unfold removeTarget
  cases hindex : graph.allTargets.firstIndex t with
  | none => rfl
  | some index =>
    have hmem : t ∈ graph.allTargets.elements := by
      rw [← OrderedSet.contains_iff, OrderedSet.contains, hindex]
      rfl
    dsimp only
    rw [if_neg (fun hne => h ⟨hmem, hne⟩)]

/-- **The lists are fixed up one by one**, each for all the targets that are removed. -/
theorem removeTargets_eq (group : List ConfiguredTarget) (graph : TargetGraph ConfiguredTarget BuildableItem) :
    removeTargets suffixedTarget group graph =
      (graph.immediateDependenciesByConfiguredTarget.mapM (fun entry =>
        (fixUps suffixedTarget (removedTargets suffixedTarget group graph.allTargets.elements) entry.2).map
          (Prod.mk entry.1))).map
        (fun immediate =>
          ⟨without graph.allTargets (removedTargets suffixedTarget group graph.allTargets.elements), immediate⟩) := by
  induction group generalizing graph with
  | nil =>
    have hmapM : graph.immediateDependenciesByConfiguredTarget.mapM (fun entry =>
        (fixUps suffixedTarget [] entry.2).map (Prod.mk entry.1)) =
          some (graph.immediateDependenciesByConfiguredTarget.map id) :=
      Fallible.mapM_eq_some_map.mpr (fun entry _ => rfl)
    have hwithout : without graph.allTargets [] = graph.allTargets := by
      refine ext_elements (filter_eq_self.mpr fun t _ => ?_)
      exact decide_eq_true not_mem_nil
    rw [removedTargets, hmapM, map_id, Option.map_some, hwithout]
    rfl
  | cons t rest ih =>
    show (removeTarget suffixedTarget graph t).bind (removeTargets suffixedTarget rest) = _
    rw [removedTargets]
    split_ifs with ht
    · rw [removeTarget_of_mem ht.1 ht.2]
      have hfilter : (without graph.allTargets [t]).elements = graph.allTargets.elements.filter (· ≠ t) := by
        exact filter_congr fun u _ => decide_eq_decide.mpr (not_congr mem_singleton)
      generalize hremoved : removedTargets suffixedTarget rest (graph.allTargets.elements.filter (· ≠ t)) = removed
      have hwithout : without (without graph.allTargets [t]) removed = without graph.allTargets (t :: removed) := by
        refine ext_elements ?_
        show (without graph.allTargets [t]).elements.filter _ = _
        rw [hfilter, filter_filter]
        refine filter_congr fun u _ => ?_
        rw [← Bool.decide_and, decide_eq_decide, mem_cons, not_or, and_comm]
      -- one pass for this target and one for the others
      have hpasses : (graph.immediateDependenciesByConfiguredTarget.mapM (fun entry =>
          (fixUp suffixedTarget t entry.2).map (Prod.mk entry.1))).bind (fun immediate =>
            immediate.mapM (fun entry => (fixUps suffixedTarget removed entry.2).map (Prod.mk entry.1))) =
          graph.immediateDependenciesByConfiguredTarget.mapM (fun entry =>
            (fixUps suffixedTarget (t :: removed) entry.2).map (Prod.mk entry.1)) := by
        rw [Fallible.mapM_mapM]
        congr 1
        funext entry
        rw [fixUps_cons]
        cases fixUp suffixedTarget t entry.2 with
        | none => rfl
        | some dependencies => rfl
      rw [← hpasses]
      cases graph.immediateDependenciesByConfiguredTarget.mapM (fun entry =>
          (fixUp suffixedTarget t entry.2).map (Prod.mk entry.1)) with
      | none => rfl
      | some immediate =>
        show removeTargets suffixedTarget rest ⟨without graph.allTargets [t], immediate⟩ = _
        rw [ih, hfilter, hremoved, hwithout]
        rfl
    · rw [removeTarget_of_not ht]
      exact ih graph

theorem replaced_congr {removed removed' : ConfiguredTarget → Prop} [DecidablePred removed] [DecidablePred removed']
    (h : ∀ t, removed t ↔ removed' t)
    (dependencies : OrderedSet (ResolvedTargetDependency ConfiguredTarget BuildableItem)) :
    replaced suffixedTarget removed dependencies = replaced suffixedTarget removed' dependencies := by
  unfold replaced
  congr 1
  exact map_congr_left fun d _ => if_congr (h d.target) rfl rfl

/-- **When the lists are fixed up**: exactly when each of them names one removed target at most, and not the one that
replaces it beside. -/
theorem removeTargets_iff (suffixedTarget : ConfiguredTarget) (configuredTargets : List ConfiguredTarget)
    (graph : TargetGraph ConfiguredTarget BuildableItem) :
    (∃ graph', removeTargets suffixedTarget configuredTargets graph = some graph' ∧
      graph'.allTargets.elements =
        graph.allTargets.elements.filter (fun t => ¬ IsRemoved suffixedTarget configuredTargets graph t) ∧
      graph'.immediateDependenciesByConfiguredTarget = graph.immediateDependenciesByConfiguredTarget.map
        (fun entry => (entry.1, replaced suffixedTarget (IsRemoved suffixedTarget configuredTargets graph) entry.2)) ∧
      ∀ entry ∈ graph'.immediateDependenciesByConfiguredTarget, ∀ d ∈ entry.2.elements,
        ¬ IsRemoved suffixedTarget configuredTargets graph d.target) ↔
    ∀ entry ∈ graph.immediateDependenciesByConfiguredTarget,
      Replaceable suffixedTarget (IsRemoved suffixedTarget configuredTargets graph) entry.2 := by
  have hmem : ∀ t, t ∈ removedTargets suffixedTarget configuredTargets graph.allTargets.elements ↔
      IsRemoved suffixedTarget configuredTargets graph t := fun t => mem_removedTargets
  have hnodup : (removedTargets suffixedTarget configuredTargets graph.allTargets.elements).Nodup :=
    nodup_removedTargets configuredTargets graph.allTargets.elements
  have hsuffixed : suffixedTarget ∉ removedTargets suffixedTarget configuredTargets graph.allTargets.elements :=
    fun h => (mem_removedTargets.mp h).2.1 rfl
  have hlist : ∀ dependencies : OrderedSet (ResolvedTargetDependency ConfiguredTarget BuildableItem),
      fixUps suffixedTarget (removedTargets suffixedTarget configuredTargets graph.allTargets.elements) dependencies =
          some (replaced suffixedTarget (IsRemoved suffixedTarget configuredTargets graph) dependencies) ↔
        Replaceable suffixedTarget (IsRemoved suffixedTarget configuredTargets graph) dependencies := by
    intro dependencies
    rw [← replaced_congr hmem, fixUps_iff hnodup hsuffixed]
    unfold Replaceable
    simp only [hmem]
  rw [removeTargets_eq]
  constructor
  · rintro ⟨graph', hrun, -, himmediate, -⟩ entry hentry
    obtain ⟨immediate, hmapM, rfl⟩ := map_eq_some_iff.mp hrun
    obtain rfl := himmediate
    have hfix := Fallible.mapM_eq_some_map.mp hmapM entry hentry
    obtain ⟨dependencies, hfix, heq⟩ := map_eq_some_iff.mp hfix
    obtain rfl := (Prod.mk.inj heq).2
    exact (hlist entry.2).mp hfix
  · intro h
    have hmapM : graph.immediateDependenciesByConfiguredTarget.mapM (fun entry =>
        (fixUps suffixedTarget (removedTargets suffixedTarget configuredTargets graph.allTargets.elements) entry.2).map
          (Prod.mk entry.1)) = some (graph.immediateDependenciesByConfiguredTarget.map (fun entry =>
            (entry.1, replaced suffixedTarget (IsRemoved suffixedTarget configuredTargets graph) entry.2))) := by
      refine Fallible.mapM_eq_some_map.mpr fun entry hentry => ?_
      rw [(hlist entry.2).mpr (h entry hentry)]
      rfl
    rw [hmapM]
    refine ⟨_, rfl, ?_, rfl, fun entry hentry d hd hremoved => ?_⟩
    · exact filter_congr fun t _ => decide_eq_decide.mpr (not_congr (hmem t))
    · obtain ⟨entry, -, rfl⟩ := mem_map.mp hentry
      refine not_names_replaced (fun hself => ?_) hremoved ⟨d, hd, rfl⟩
      exact hself.2.1 rfl

end

/-- A target `0` that depends on the specializations `1` and `2` of another one and on a third, in the order of the
targets. -/
def bothSpecializations : TargetGraph Nat Unit where
  allTargets := ⟨[3, 1, 2, 0], by decide⟩
  immediateDependenciesByConfiguredTarget :=
    [(0, ⟨[⟨1, .explicit⟩, ⟨2, .explicit⟩, ⟨3, .explicit⟩], by decide⟩), (1, .empty), (2, .empty), (3, .empty)]

/-- When `2` replaces `1`, it is removed itself. -/
theorem bothSpecializations_not_replaced : ¬ ∃ graph', removeTargets 2 [1, 2] bothSpecializations = some graph' ∧
    graph'.immediateDependenciesByConfiguredTarget =
      bothSpecializations.immediateDependenciesByConfiguredTarget.map
        (fun entry => (entry.1, replaced 2 (IsRemoved 2 [1, 2] bothSpecializations) entry.2)) ∧
    ∀ entry ∈ graph'.immediateDependenciesByConfiguredTarget, ∀ d ∈ entry.2.elements,
      ¬ IsRemoved 2 [1, 2] bothSpecializations d.target := by
  rintro ⟨graph', hrun, -, hclean⟩
  have hlists : (removeTargets 2 [1, 2] bothSpecializations).map (fun graph =>
      graph.immediateDependenciesByConfiguredTarget.map (fun entry => entry.2.elements.map (fun d => d.target))) =
        some [[1, 3], [], [], []] := by decide
  rw [hrun, map_some, some_inj] at hlists
  have hlist : [1, 3] ∈ graph'.immediateDependenciesByConfiguredTarget.map
      (fun entry => entry.2.elements.map (fun d => d.target)) := by
    rw [hlists]
    exact mem_cons_self
  obtain ⟨entry, hentry, htargets⟩ := mem_map.mp hlist
  have hone : 1 ∈ entry.2.elements.map (fun d => d.target) := by
    rw [htargets]
    exact mem_cons_self
  obtain ⟨d, hd, htarget⟩ := mem_map.mp hone
  refine hclean entry hentry d hd ?_
  rw [htarget]
  decide

end TargetGraph

end Builra
