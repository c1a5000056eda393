import Builra.Lib.Acyclic
import Mathlib.Algebra.Order.BigOperators.Group.List
import Mathlib.Order.Interval.Set.Nat
import Mathlib.Tactic.Linarith

namespace Builra

open List Function

/-!
# `Analysis.CriticalPath` — the most expensive chain of dependencies

Paths are computed for each element in turn and cached; a path that is computed for a dependency on the way loses the
element that asked for it. Weights are exact rationals.
-/

/-- A node in the weighted graph. -/
structure CriticalPath.Element where
  identifier : Nat
  weight : ℚ
  dependencies : List Nat
deriving DecidableEq

structure CriticalPath where
  weight : ℚ
  elements : List CriticalPath.Element
deriving DecidableEq

namespace CriticalPath

def empty : CriticalPath where
  weight := 0
  elements := []

/-- A path with one element. -/
def ofElement (element : Element) : CriticalPath where
  weight := element.weight
  elements := [element]

def appending (p other : CriticalPath) : CriticalPath where
  weight := p.weight + other.weight
  elements := p.elements ++ other.elements

/-- `max(by: { $0.weight < $1.weight })`, the first one of those with the largest weight. -/
def maxByWeight : List CriticalPath → Option CriticalPath
  | [] => none
  | p :: paths => some (paths.foldl (fun result q => if result.weight < q.weight then q else result) p)

/-- The paths by identifier. -/
abbrev Cache := Nat → Option CriticalPath

/-- `map` with a function that uses the cache. -/
def mapPaths {α : Type} (path : α → Cache → Option (CriticalPath × Cache)) :
    List α → Cache → Option (List CriticalPath × Cache)
  | [], cache => some ([], cache)
  | a :: as, cache =>
    match path a cache with
    | none => none
    | some (p, cache) =>
      match mapPaths path as cache with
      | none => none
      | some (paths, cache) => some (p :: paths, cache)

/-- `generatePath`, with a bound on the depth of its recursion; none for an identifier outside the collection. -/
def generatePath (elements : List Element) : Nat → Element → CriticalPath → Cache → Option (CriticalPath × Cache)
  | 0, _, _, _ => none
  | depth + 1, element, tail, cache =>
    match cache element.identifier with
    | some cached => some (cached.appending tail, cache)
    | none =>
      let newPath := ofElement element
      let paths := mapPaths (fun identifier cache =>
        match elements[identifier]? with
        | none => none
        | some dependency => generatePath elements depth dependency newPath cache) element.dependencies cache
      match paths with
      | none => none
      | some (paths, cache) =>
        -- The tail is not appended to a path that is new.
        let maxPath := (maxByWeight paths).getD newPath
        some (maxPath, Function.update cache element.identifier (some maxPath))

def calculateCriticalPath (elements : List Element) : Option CriticalPath :=
  if elements = [] then some empty
  else
    match mapPaths (fun element => generatePath elements (elements.length + 1) element empty) elements
        (fun _ => none) with
    | none => none
    | some (paths, _) => some ((maxByWeight paths).getD empty)

/-! ## Collections -/

/-- The element with an identifier names another one as its dependency. -/
def Depends (dependencies : List (List Nat)) (d i : Nat) : Prop := ∃ ds, dependencies[i]? = some ds ∧ d ∈ ds

/-- A collection apart from the weights: the dependencies of each element, by its identifier, which are elements of the
    collection and lead to no cycle. -/
structure Graph where
  dependencies : List (List Nat)
  ne_nil : dependencies ≠ []
  inside : ∀ ds ∈ dependencies, ∀ d ∈ ds, d < dependencies.length
  acyclic : Acyclic.NoCycle (Depends dependencies)

structure Weights where
  weight : Nat → ℚ
  nonneg : ∀ i, 0 ≤ weight i

/-- The element with an identifier. -/
def Weights.element (w : Weights) (i : Nat) (dependencies : List Nat) : Element where
  identifier := i
  weight := w.weight i
  dependencies := dependencies

namespace Graph

variable (g : Graph)

def elements (w : Weights) : List Element := g.dependencies.mapIdx w.element

/-- A dependency chain in the collection. -/
structure IsChain (g : Graph) (w : Weights) (chain : List Element) : Prop where
  inside : ∀ e ∈ chain, e ∈ g.elements w
  linked : chain.IsChain fun previous following => previous.identifier ∈ following.dependencies

/-- The total weight of elements. -/
def total (chain : List Element) : ℚ := (chain.map Element.weight).sum

/-- The path is a dependency chain of its own weight, which no chain exceeds. -/
structure IsCritical (g : Graph) (w : Weights) (path : CriticalPath) : Prop where
  chain : g.IsChain w path.elements
  weight : path.weight = total path.elements
  maximal : ∀ chain, g.IsChain w chain → total chain ≤ path.weight

/-- A critical path is calculated. -/
def Right (w : Weights) : Prop :=
  ∃ path, calculateCriticalPath (g.elements w) = some path ∧ g.IsCritical w path

/-- Dependencies are listed before the elements that depend on them. -/
def ListedBefore : Prop := ∀ d i, Depends g.dependencies d i → d < i

/-- No element names a dependency twice. -/
def Distinct : Prop := ∀ ds ∈ g.dependencies, ds.Nodup

variable {g : Graph} {w : Weights}

theorem length_elements (g : Graph) (w : Weights) : (g.elements w).length = g.dependencies.length :=
  length_mapIdx

theorem getElem?_elements (g : Graph) (w : Weights) (i : Nat) :
    (g.elements w)[i]? = g.dependencies[i]?.map (w.element i) := by
  rw [elements, getElem?_mapIdx]

/-- An element of the collection has an identifier and dependencies. -/
theorem exists_of_mem {e : Element} (h : e ∈ g.elements w) :
    ∃ i ds, g.dependencies[i]? = some ds ∧ e = w.element i ds := by
  obtain ⟨i, hi⟩ := mem_iff_getElem?.mp h
  rw [getElem?_elements, Option.map_eq_some_iff] at hi
  obtain ⟨ds, hds, rfl⟩ := hi
  exact ⟨i, ds, hds, rfl⟩

theorem mem_elements {i : Nat} {ds : List Nat} (h : g.dependencies[i]? = some ds) (w : Weights) :
    w.element i ds ∈ g.elements w := by
  refine mem_of_getElem? (i := i) ?_
  rw [getElem?_elements, h]
  rfl

theorem lt_length_of_depends {d i : Nat} (h : Depends g.dependencies d i) :
    d < g.dependencies.length ∧ i < g.dependencies.length := by
  obtain ⟨ds, hds, hd⟩ := h
  exact ⟨g.inside ds (mem_of_getElem? hds) d hd, (List.getElem?_eq_some_iff.mp hds).1⟩

theorem exists_of_depends (g : Graph) {d i : Nat} (h : Depends g.dependencies d i) :
    ∃ ds, g.dependencies[d]? = some ds :=
  ⟨_, getElem?_eq_getElem (lt_length_of_depends h).1⟩

/-- What leads to an element is in the collection. -/
theorem lower_subset (g : Graph) (i : Nat) :
    {d | Relation.TransGen (Depends g.dependencies) d i} ⊆ Set.Iio g.dependencies.length := by
  intro d hd
  obtain ⟨i', hi', -⟩ := Relation.TransGen.head'_iff.mp hd
  exact (lt_length_of_depends hi').1

theorem finite_lower (g : Graph) (i : Nat) : {d | Relation.TransGen (Depends g.dependencies) d i}.Finite :=
  (Set.finite_Iio _).subset (g.lower_subset i)

theorem height_le (g : Graph) (i : Nat) : Acyclic.height (Depends g.dependencies) i ≤ g.dependencies.length := by
  have hle := Set.ncard_le_ncard (g.lower_subset i) (Set.finite_Iio _)
  rw [Set.ncard_Iio_nat] at hle
  exact hle

end Graph

/-! ## Maxima -/

theorem foldl_max {p : CriticalPath} {paths : List CriticalPath} :
    let m := paths.foldl (fun result q => if result.weight < q.weight then q else result) p
    m ∈ p :: paths ∧ ∀ q ∈ p :: paths, q.weight ≤ m.weight := by
  induction paths generalizing p with
  | nil =>
    refine ⟨mem_cons_self, fun q hq => ?_⟩
    rw [mem_singleton.mp hq]
    exact le_refl _
  | cons p' paths ih =>
    rw [foldl_cons]
    by_cases hlt : p.weight < p'.weight
    · rw [if_pos hlt]
      obtain ⟨hmem, hmax⟩ := @ih p'
      refine ⟨mem_cons_of_mem p hmem, fun q hq => ?_⟩
      rcases mem_cons.mp hq with rfl | hq
      · exact hlt.le.trans (hmax p' mem_cons_self)
      · exact hmax q hq
    · rw [if_neg hlt]
      obtain ⟨hmem, hmax⟩ := @ih p
      refine ⟨?_, fun q hq => ?_⟩
      · rcases mem_cons.mp hmem with heq | hmem
        · rw [heq]
          exact mem_cons_self
        · exact mem_cons_of_mem p (mem_cons_of_mem p' hmem)
      · rcases mem_cons.mp hq with rfl | hq
        · exact hmax q mem_cons_self
        · rcases mem_cons.mp hq with rfl | hq
          · exact (not_lt.mp hlt).trans (hmax p mem_cons_self)
          · exact hmax q (mem_cons_of_mem p hq)

/-- The maximum of paths, or what stands for it if there are none. -/
theorem maxByWeight_cases (paths : List CriticalPath) (default : CriticalPath) :
    (paths = [] ∧ (maxByWeight paths).getD default = default) ∨
      ((maxByWeight paths).getD default ∈ paths ∧
        ∀ q ∈ paths, q.weight ≤ ((maxByWeight paths).getD default).weight) := by
  cases paths with
  | nil => exact .inl ⟨rfl, rfl⟩
  | cons p paths => exact .inr foldl_max

/-! ## Runs -/

section

variable {g : Graph} {w : Weights}

theorem exists_mapPaths {α : Type} {path : α → Cache → Option (CriticalPath × Cache)} {as : List α}
    (h : ∀ a ∈ as, ∀ cache, ∃ result, path a cache = some result) (cache : Cache) :
    ∃ result, mapPaths path as cache = some result := by
  induction as generalizing cache with
  | nil => exact ⟨_, rfl⟩
  | cons a as ih =>
    obtain ⟨⟨p, cache'⟩, hpath⟩ := h a mem_cons_self cache
    obtain ⟨⟨paths, cache''⟩, hpaths⟩ := ih (fun b hb => h b (mem_cons_of_mem a hb)) cache'
    refine ⟨(p :: paths, cache''), ?_⟩
    rw [mapPaths, hpath]
    show (match mapPaths path as cache' with | none => none | some (paths, cache) => some (p :: paths, cache)) = _
    rw [hpaths]

variable {ds is : List Nat} {i e d : Nat} {cache cache' : Cache} {paths : List CriticalPath} {tail : CriticalPath}

/-- The recursion goes down along dependencies. -/
theorem exists_generatePath {depth : Nat} (hds : g.dependencies[i]? = some ds)
    (hdepth : Acyclic.height (Depends g.dependencies) i < depth) (tail : CriticalPath) (cache : Cache) :
    ∃ result, generatePath (g.elements w) depth (w.element i ds) tail cache = some result := by
  induction depth generalizing i ds tail cache with
  | zero => omega
  | succ depth ih =>
    rw [generatePath]
    cases hcache : cache (w.element i ds).identifier with
    | some cached => exact ⟨_, rfl⟩
    | none =>
      simp only
      have hall : ∃ result, mapPaths (fun identifier cache =>
          match (g.elements w)[identifier]? with
          | none => none
          | some dependency => generatePath (g.elements w) depth dependency (ofElement (w.element i ds)) cache)
          ds cache = some result := by
        refine exists_mapPaths ?_ cache
        intro d hd cache
        have hdepends : Depends g.dependencies d i := ⟨ds, hds, hd⟩
        obtain ⟨ds', hds'⟩ := g.exists_of_depends hdepends
        have hlt := g.acyclic.height_lt (g.finite_lower i) hdepends
        rw [g.getElem?_elements w d, hds']
        exact ih hds' (by omega) _ cache
      obtain ⟨⟨paths, cache'⟩, hpaths⟩ := hall
      have hdependencies : (w.element i ds).dependencies = ds := rfl
      rw [hdependencies, hpaths]
      exact ⟨_, rfl⟩

/-- **The calculation ends** with a path. -/
theorem exists_calculateCriticalPath (g : Graph) (w : Weights) :
    ∃ path, calculateCriticalPath (g.elements w) = some path := by
  have hall : ∃ result, mapPaths (fun element => generatePath (g.elements w) ((g.elements w).length + 1) element empty)
      (g.elements w) (fun _ => none) = some result := by
    refine exists_mapPaths ?_ _
    intro element helement cache
    obtain ⟨i, ds, hds, rfl⟩ := g.exists_of_mem helement
    refine exists_generatePath hds ?_ empty cache
    rw [g.length_elements]
    exact Nat.lt_succ_of_le (g.height_le i)
  obtain ⟨⟨paths, cache'⟩, hpaths⟩ := hall
  unfold calculateCriticalPath
  by_cases hnil : g.elements w = []
  · rw [if_pos hnil]
    exact ⟨empty, rfl⟩
  · rw [if_neg hnil, hpaths]
    exact ⟨_, rfl⟩

/-- What is cached for an element whose dependencies have these paths. -/
def pathOf (w : Weights) (i : Nat) (ds : List Nat) (paths : List CriticalPath) : CriticalPath :=
  (maxByWeight paths).getD (ofElement (w.element i ds))

/-- Paths that are generated one after the other with a tail: found in the cache, or computed from the paths of the
    dependencies. -/
inductive Run (g : Graph) (w : Weights) : List Nat → CriticalPath → Cache → List CriticalPath → Cache → Prop
  | nil (tail : CriticalPath) (cache : Cache) : Run g w [] tail cache [] cache
  | cached {i is tail q cache cache' paths}
      (hcache : cache i = some q) (rest : Run g w is tail cache paths cache') :
      Run g w (i :: is) tail cache (q.appending tail :: paths) cache'
  | computed {i is ds tail cache cache₁ cache' paths₁ paths} (hds : g.dependencies[i]? = some ds) (hcache : cache i = none)
      (hdeps : Run g w ds (ofElement (w.element i ds)) cache paths₁ cache₁)
      (rest : Run g w is tail (Function.update cache₁ i (some (pathOf w i ds paths₁))) paths cache') :
      Run g w (i :: is) tail cache (pathOf w i ds paths₁ :: paths) cache'

theorem run_mapPaths {α : Type} {path : α → Cache → Option (CriticalPath × Cache)} {identifier : α → Nat}
    {as : List α} (h : ∀ a ∈ as, ∀ cache p cache', path a cache = some (p, cache') → ∀ is paths cache'',
      Run g w is tail cache' paths cache'' → Run g w (identifier a :: is) tail cache (p :: paths) cache'')
    (hpaths : mapPaths path as cache = some (paths, cache')) :
    Run g w (as.map identifier) tail cache paths cache' := by
  induction as generalizing cache paths with
  | nil =>
    obtain ⟨rfl, rfl⟩ := Prod.mk.inj (Option.some.inj hpaths)
    exact .nil tail cache
  | cons a as ih =>
    rw [mapPaths] at hpaths
    cases hpath : path a cache with
    | none =>
      rw [hpath] at hpaths
      cases hpaths
    | some first =>
      obtain ⟨p, cache₁⟩ := first
      rw [hpath] at hpaths
      simp only at hpaths
      cases hrest : mapPaths path as cache₁ with
      | none =>
        rw [hrest] at hpaths
        cases hpaths
      | some rest =>
        obtain ⟨paths', cache₂⟩ := rest
        rw [hrest] at hpaths
        obtain ⟨rfl, rfl⟩ := Prod.mk.inj (Option.some.inj hpaths)
        exact h a mem_cons_self cache p cache₁ hpath _ _ _
          (ih (fun b hb => h b (mem_cons_of_mem a hb)) hrest)

theorem run_generatePath {depth : Nat} {p : CriticalPath} {cache'' : Cache} (hds : g.dependencies[i]? = some ds)
    (h : generatePath (g.elements w) depth (w.element i ds) tail cache = some (p, cache'))
    (hrest : Run g w is tail cache' paths cache'') :
    Run g w (i :: is) tail cache (p :: paths) cache'' := by
  induction depth generalizing i ds tail p cache cache' cache'' is paths with
  | zero => cases h
  | succ depth ih =>
    rw [generatePath] at h
    cases hcache : cache (w.element i ds).identifier with
    | some q =>
      rw [hcache] at h
      cases h
      exact .cached hcache hrest
    | none =>
      rw [hcache] at h
      simp only at h
      split at h
      · cases h
      · rename_i paths₁ cache₁ hpaths
        cases h
        refine .computed hds hcache ?_ hrest
        have hrun : Run g w (ds.map id) (ofElement (w.element i ds)) cache paths₁ cache₁ := by
          refine run_mapPaths ?_ hpaths
          intro d hd cache p cache' hpath is paths cache'' hrest
          obtain ⟨ds', hds'⟩ := g.exists_of_depends ⟨ds, hds, hd⟩
          rw [g.getElem?_elements w d, hds'] at hpath
          exact ih hds' hpath hrest
        rw [map_id] at hrun
        exact hrun

theorem Graph.map_identifier (g : Graph) (w : Weights) :
    (g.elements w).map Element.identifier = List.range g.dependencies.length := by
  refine ext_getElem? fun i => ?_
  rw [getElem?_map, g.getElem?_elements]
  by_cases hi : i < g.dependencies.length
  · rw [getElem?_eq_getElem hi, getElem?_range hi]
    rfl
  · rw [getElem?_eq_none (Nat.le_of_not_lt hi), getElem?_eq_none]
    · rfl
    · rw [length_range]
      exact Nat.le_of_not_lt hi

/-- The paths of all the elements in turn, and the maximum of them. -/
theorem run_calculateCriticalPath {path : CriticalPath} (h : calculateCriticalPath (g.elements w) = some path) :
    ∃ paths cache, Run g w (List.range g.dependencies.length) empty (fun _ => none) paths cache ∧
      path = (maxByWeight paths).getD empty := by
  have hne : g.elements w ≠ [] := by
    rw [← length_pos_iff, g.length_elements]
    exact length_pos_iff.mpr g.ne_nil
  unfold calculateCriticalPath at h
  rw [if_neg hne] at h
  split at h
  · cases h
  · rename_i paths cache hpaths
    cases h
    refine ⟨paths, cache, ?_, rfl⟩
    rw [← g.map_identifier w]
    refine run_mapPaths ?_ hpaths
    intro element helement cache p cache' hpath is paths cache'' hrest
    obtain ⟨i, ds, hds, rfl⟩ := g.exists_of_mem helement
    exact run_generatePath hds hpath hrest

/-! ## What a run does to the cache -/

section

variable {is : List Nat} {tail : CriticalPath} {cache cache' : Cache} {paths : List CriticalPath}

variable {q : CriticalPath}

theorem update_of_none {i : Nat} {p : CriticalPath} (hnone : cache i = none) {j : Nat} (hq : cache j = some q) :
    Function.update cache' i (some p) j = cache' j := by
  refine update_of_ne ?_ _ _
  rintro rfl
  rw [hnone] at hq
  cases hq

/-- A path stays in the cache. -/
theorem Run.keeps (h : Run g w is tail cache paths cache') {j : Nat} (hq : cache j = some q) :
    cache' j = some q := by
  induction h with
  | nil => exact hq
  | cached _ _ ih => exact ih hq
  | computed _ hcache _ _ ih₁ ih₂ =>
    refine ih₂ ?_
    rw [update_of_none hcache hq]
    exact ih₁ hq

/-- The new paths are those of elements that are asked for, and of what these depend on. -/
theorem Run.new (h : Run g w is tail cache paths cache') {j : Nat} (hq : cache' j = some q) :
    cache j = some q ∨ ∃ i ∈ is, Relation.ReflTransGen (Depends g.dependencies) j i := by
  induction h generalizing q with
  | nil => exact .inl hq
  | cached _ _ ih => exact (ih hq).imp_right fun ⟨i, hi, hreach⟩ => ⟨i, mem_cons_of_mem _ hi, hreach⟩
  | @computed i is ds tail cache cache₁ cache' paths₁ paths hds hcache _ _ ih₁ ih₂ =>
    by_cases hji : j = i
    · subst hji
      exact .inr ⟨j, mem_cons_self, .refl⟩
    · rcases ih₂ hq with hold | ⟨i', hi', hreach⟩
      · rw [update_of_ne hji] at hold
        refine (ih₁ hold).imp_right fun ⟨d, hd, hreach⟩ => ⟨i, mem_cons_self, ?_⟩
        exact hreach.tail ⟨ds, hds, hd⟩
      · exact .inr ⟨i', mem_cons_of_mem _ hi', hreach⟩

end

/-! ## Dependencies listed before -/

/-- A heaviest chain that ends with an element. -/
structure Best (g : Graph) (w : Weights) (e : Element) (p : CriticalPath) : Prop where
  chain : g.IsChain w p.elements
  last : p.elements.getLast? = some e
  weight : p.weight = Graph.total p.elements
  maximal : ∀ front, g.IsChain w (front ++ [e]) → Graph.total (front ++ [e]) ≤ p.weight

theorem total_append (chain chain' : List Element) :
    Graph.total (chain ++ chain') = Graph.total chain + Graph.total chain' := by
  rw [Graph.total, map_append, sum_append]
  rfl

theorem total_singleton (e : Element) : Graph.total [e] = e.weight := by
  rw [Graph.total, map_singleton, sum_singleton]

theorem total_nonneg {chain : List Element} (h : ∀ e ∈ chain, e ∈ g.elements w) : 0 ≤ Graph.total chain := by
  refine sum_nonneg fun x hx => ?_
  obtain ⟨e, he, rfl⟩ := mem_map.mp hx
  obtain ⟨i, ds, -, rfl⟩ := g.exists_of_mem (h e he)
  exact w.nonneg i

/-- What precedes the last element of a chain is a chain that ends with one of its dependencies. -/
theorem isChain_concat (hds : g.dependencies[i]? = some ds) (front : List Element) :
    g.IsChain w (front ++ [w.element i ds]) ↔
      g.IsChain w front ∧ ∀ e ∈ front.getLast?, e.identifier ∈ ds := by
  constructor
  · rintro ⟨hinside, hlinked⟩
    obtain ⟨hfront, -, hlast⟩ := isChain_append.mp hlinked
    refine ⟨⟨fun e he => hinside e (mem_append_left _ he), hfront⟩, fun e he => ?_⟩
    exact hlast e he (w.element i ds) rfl
  · rintro ⟨⟨hinside, hfront⟩, hlast⟩
    refine ⟨fun e he => ?_, isChain_append.mpr ⟨hfront, isChain_singleton _, ?_⟩⟩
    · rcases mem_append.mp he with he | he
      · exact hinside e he
      · rw [mem_singleton.mp he]
        exact g.mem_elements hds w
    · intro e he e' he'
      cases he'
      exact hlast e he

/-- Paths that are all in the cache are found there. -/
theorem run_of_cached (h : Run g w is tail cache paths cache') (hcached : ∀ i ∈ is, ∃ q, cache i = some q) :
    cache' = cache ∧ paths = is.map fun i => ((cache i).getD empty).appending tail := by
  induction h with
  | nil => exact ⟨rfl, rfl⟩
  | cached hcache _ ih =>
    obtain ⟨rfl, rfl⟩ := ih fun i hi => hcached i (mem_cons_of_mem _ hi)
    rw [map_cons, hcache]
    exact ⟨rfl, rfl⟩
  | @computed i _ _ _ _ _ _ _ _ _ hcache _ _ _ _ =>
    obtain ⟨q, hq⟩ := hcached i mem_cons_self
    rw [hcache] at hq
    cases hq

/-- The cache has heaviest chains for the elements before a position, and nothing for the others. -/
structure Ready (g : Graph) (w : Weights) (i : Nat) (cache : Cache) : Prop where
  before : ∀ j ds, g.dependencies[j]? = some ds → j < i → ∃ q, cache j = some q ∧ Best g w (w.element j ds) q
  behind : ∀ j, i ≤ j → cache j = none

/-- From heaviest chains of all the dependencies comes a heaviest chain of the element. -/
theorem best_pathOf (hds : g.dependencies[i]? = some ds)
    (hcached : ∀ d ∈ ds, ∃ ds' q, g.dependencies[d]? = some ds' ∧ cache d = some q ∧ Best g w (w.element d ds') q) :
    Best g w (w.element i ds)
      (pathOf w i ds (ds.map fun d => ((cache d).getD empty).appending (ofElement (w.element i ds)))) := by
  have hpath : ∀ d ∈ ds, ∃ ds' q, g.dependencies[d]? = some ds' ∧ Best g w (w.element d ds') q ∧
      ((cache d).getD empty).appending (ofElement (w.element i ds)) =
        ⟨q.weight + w.weight i, q.elements ++ [w.element i ds]⟩ := by
    intro d hd
    obtain ⟨ds', q, hds', hq, hbest⟩ := hcached d hd
    rw [hq]
    exact ⟨ds', q, hds', hbest, rfl⟩
  unfold pathOf
  rcases maxByWeight_cases (ds.map fun d => ((cache d).getD empty).appending (ofElement (w.element i ds)))
    (ofElement (w.element i ds)) with ⟨hnil, hdefault⟩ | ⟨hmem, hmax⟩
  · -- Without dependencies the element is the only chain.
    obtain rfl := map_eq_nil_iff.mp hnil
    rw [hdefault]
    refine ⟨?_, rfl, (total_singleton _).symm, ?_⟩
    · exact (isChain_concat hds []).mpr ⟨⟨(fun e he => nomatch he), isChain_nil⟩, fun e he => nomatch he⟩
    · intro front hfront
      obtain ⟨-, hlast⟩ := (isChain_concat hds front).mp hfront
      cases hfront' : front.getLast? with
      | none =>
        rw [getLast?_eq_none_iff.mp hfront', nil_append, total_singleton]
        exact le_refl _
      | some e => exact absurd (hlast e hfront') not_mem_nil
  · generalize (maxByWeight (ds.map fun d =>
      ((cache d).getD empty).appending (ofElement (w.element i ds)))).getD (ofElement (w.element i ds)) = p at hmem hmax
    obtain ⟨d, hd, rfl⟩ := mem_map.mp hmem
    obtain ⟨ds', q, hds', hbest, hp⟩ := hpath d hd
    rw [hp] at hmax ⊢
    refine ⟨?_, getLast?_concat, ?_, ?_⟩
    · refine (isChain_concat hds q.elements).mpr ⟨hbest.chain, fun e he => ?_⟩
      rw [hbest.last] at he
      cases he
      exact hd
    · show q.weight + w.weight i = Graph.total (q.elements ++ [w.element i ds])
      rw [total_append, total_singleton, hbest.weight]
      rfl
    · intro front hfront
      obtain ⟨hchain, hlast⟩ := (isChain_concat hds front).mp hfront
      rw [total_append, total_singleton]
      show Graph.total front + w.weight i ≤ q.weight + w.weight i
      cases hfront' : front.getLast? with
      | none =>
        rw [getLast?_eq_none_iff.mp hfront', hbest.weight]
        exact add_le_add_left (total_nonneg hbest.chain.inside) _
      | some e =>
        obtain ⟨front', rfl⟩ := getLast?_eq_some_iff.mp hfront'
        obtain ⟨j, ds'', hj, rfl⟩ := g.exists_of_mem (hchain.inside e (mem_append_right _ mem_cons_self))
        have hdependency : j ∈ ds := hlast _ hfront'
        obtain ⟨ds₂, q₂, hds₂, hbest₂, hq₂⟩ := hpath j hdependency
        rw [hj] at hds₂
        cases hds₂
        have hle := hmax _ (mem_map.mpr ⟨j, hdependency, rfl⟩)
        rw [hq₂] at hle
        exact (add_le_add_left (hbest₂.maximal front' hchain) _).trans hle

/-- One after the other, all the elements get heaviest chains. -/
theorem ready_of_run (hlisted : g.ListedBefore) {n : Nat} (h : Run g w (List.range' i n) empty cache paths cache')
    (hready : Ready g w i cache) :
    (∀ j ds, g.dependencies[j]? = some ds → i ≤ j → j < i + n → ∃ p ∈ paths, Best g w (w.element j ds) p) ∧
      ∀ p ∈ paths, ∃ j ds, g.dependencies[j]? = some ds ∧ Best g w (w.element j ds) p := by
  induction n generalizing i cache paths with
  | zero =>
    rw [range'_zero] at h
    cases h with
    | nil => exact ⟨fun j ds _ hle hlt => by omega, fun p hp => nomatch hp⟩
  | succ n ih =>
    rw [range'_succ] at h
    cases h with
    | cached hcache _ =>
      rw [hready.behind i (Nat.le_refl i)] at hcache
      cases hcache
    | @computed _ _ ds _ _ cache₁ _ paths₁ paths hds hcache hdeps hrest =>
      have hcached : ∀ d ∈ ds, ∃ ds' q, g.dependencies[d]? = some ds' ∧ cache d = some q ∧
          Best g w (w.element d ds') q := by
        intro d hd
        obtain ⟨ds', hds'⟩ := g.exists_of_depends ⟨ds, hds, hd⟩
        obtain ⟨q, hq, hbest⟩ := hready.before d ds' hds' (hlisted d i ⟨ds, hds, hd⟩)
        exact ⟨ds', q, hds', hq, hbest⟩
      obtain ⟨rfl, rfl⟩ := run_of_cached hdeps fun d hd => by
        obtain ⟨ds', q, -, hq, -⟩ := hcached d hd
        exact ⟨q, hq⟩
      have hbest := best_pathOf hds hcached
      generalize pathOf w i ds
        (ds.map fun d => ((cache₁ d).getD empty).appending (ofElement (w.element i ds))) = p at hrest hbest ⊢
      have hready' : Ready g w (i + 1) (update cache₁ i (some p)) := by
        refine ⟨fun j ds' hds' hlt => ?_, fun j hle => ?_⟩
        · by_cases hji : j = i
          · subst hji
            rw [hds] at hds'
            cases hds'
            exact ⟨p, update_self _ _ _, hbest⟩
          · rw [update_of_ne hji]
            exact hready.before j ds' hds' (by omega)
        · rw [update_of_ne (by omega)]
          exact hready.behind j (by omega)
      obtain ⟨hall, heach⟩ := ih hrest hready'
      refine ⟨fun j ds' hds' hle hlt => ?_, fun q hq => ?_⟩
      · by_cases hji : j = i
        · subst hji
          rw [hds] at hds'
          cases hds'
          exact ⟨p, mem_cons_self, hbest⟩
        · obtain ⟨q, hq, hbest'⟩ := hall j ds' hds' (by omega) (by omega)
          exact ⟨q, mem_cons_of_mem p hq, hbest'⟩
      · rcases mem_cons.mp hq with rfl | hq
        · exact ⟨i, ds, hds, hbest⟩
        · exact heach q hq

theorem right_of_listedBefore (hlisted : g.ListedBefore) (w : Weights) : g.Right w := by
  obtain ⟨path, hpath⟩ := exists_calculateCriticalPath g w
  refine ⟨path, hpath, ?_⟩
  obtain ⟨paths, cache, hrun, rfl⟩ := run_calculateCriticalPath hpath
  rw [range_eq_range'] at hrun
  obtain ⟨hall, heach⟩ := ready_of_run hlisted hrun
    ⟨fun j ds _ hlt => absurd hlt (Nat.not_lt_zero j), fun j _ => rfl⟩
  have hpos := length_pos_iff.mpr g.ne_nil
  obtain ⟨first, hfirst, -⟩ := hall 0 _ (getElem?_eq_getElem hpos) (Nat.le_refl 0) (by omega)
  rcases maxByWeight_cases paths empty with ⟨rfl, -⟩ | ⟨hmem, hmax⟩
  · cases hfirst
  · obtain ⟨i, ds, -, hbest⟩ := heach _ hmem
    refine ⟨hbest.chain, hbest.weight, fun chain hchain => ?_⟩
    cases hlast : chain.getLast? with
    | none =>
      rw [getLast?_eq_none_iff.mp hlast, hbest.weight]
      exact total_nonneg hbest.chain.inside
    | some e =>
      obtain ⟨front, rfl⟩ := getLast?_eq_some_iff.mp hlast
      obtain ⟨j, ds', hj, rfl⟩ := g.exists_of_mem (hchain.inside e (mem_append_right _ mem_cons_self))
      have hlt := (List.getElem?_eq_some_iff.mp hj).1
      obtain ⟨q, hq, hbest'⟩ := hall j ds' hj (Nat.zero_le j) (by omega)
      exact (hbest'.maximal front hchain).trans (hmax q hq)

/-! ## Dependencies listed behind -/

/-- An element and its dependency that is listed behind it. No element before it has such a dependency, and no other one
    of its own dependencies depends on this one. -/
structure Behind (g : Graph) (d e : Nat) : Prop where
  depends : Depends g.dependencies d e
  lt : e < d
  first : ∀ x y, Depends g.dependencies x y → y < e → x < y
  last : ∀ f, Depends g.dependencies f e → ¬ Relation.TransGen (Depends g.dependencies) d f

theorem le_of_reaches (hfirst : ∀ x y, Depends g.dependencies x y → y < e → x < y) {x y : Nat}
    (h : Relation.ReflTransGen (Depends g.dependencies) x y) (hlt : y < e) : x ≤ y := by
  induction h using Relation.ReflTransGen.head_induction_on with
  | refl => exact Nat.le_refl y
  | @head x x' hstep _ ih =>
    have hlt' : x < x' := hfirst x x' hstep (by omega)
    omega

/-- A collection that is not listed in the order of its dependencies has one that is listed behind. -/
theorem exists_behind (h : ¬ g.ListedBefore) : ∃ d e, Behind g d e := by
  classical
  have hexists : ∃ e d, Depends g.dependencies d e ∧ e ≤ d := by
    by_contra hnone
    exact h fun d e hstep => Nat.lt_of_not_le fun hle => hnone ⟨e, d, hstep, hle⟩
  obtain ⟨d₀, hd₀, hle₀⟩ := Nat.find_spec hexists
  have hmin : ∀ x y, Depends g.dependencies x y → y < Nat.find hexists → x < y := fun x y hstep hlt =>
    Nat.lt_of_not_le fun hle => Nat.find_min hexists hlt ⟨x, hstep, hle⟩
  generalize Nat.find hexists = e at hd₀ hle₀ hmin
  have hne : ∀ d, Depends g.dependencies d e → d ≠ e := by
    rintro d hd rfl
    exact g.acyclic d (.single hd)
  have hcycle : Acyclic.NoCycle (Relation.TransGen (Depends g.dependencies)) := by
    intro x hx
    rw [Relation.transGen_eq_self] at hx
    exact g.acyclic x hx
  have hfinite : {d | Depends g.dependencies d e ∧ e ≤ d}.Finite :=
    (g.finite_lower e).subset fun d hd => Relation.TransGen.single hd.1
  obtain ⟨d, ⟨hd, hle⟩, hlast⟩ := hcycle.exists_last hfinite ⟨d₀, hd₀, hle₀⟩
  refine ⟨d, e, hd, lt_of_le_of_ne hle (hne d hd).symm, hmin, fun f hf hreach => ?_⟩
  by_cases hfe : e ≤ f
  · exact hlast f ⟨hf, hfe⟩ hreach
  · -- What a dependency before the element depends on is before it too.
    have := le_of_reaches hmin hreach.to_reflTransGen (Nat.lt_of_not_le hfe)
    omega

/-- Only two elements have a weight. -/
def Weights.ofTwo (d e : Nat) : Weights where
  weight i := if i = d ∨ i = e then 1 else 0
  nonneg i := by
    split
    · exact zero_le_one
    · exact le_refl 0

/-- A path that the first one of the two elements is not below weighs nothing, and no path weighs more than one. -/
structure Bounded (g : Graph) (d i : Nat) (q : CriticalPath) : Prop where
  le_one : q.weight ≤ 1
  le_zero : ¬ Relation.ReflTransGen (Depends g.dependencies) d i → q.weight ≤ 0

theorem run_append {is' : List Nat} (h : Run g w (is ++ is') tail cache paths cache') :
    ∃ paths₁ cache₁ paths₂, Run g w is tail cache paths₁ cache₁ ∧ Run g w is' tail cache₁ paths₂ cache' ∧
      paths = paths₁ ++ paths₂ := by
  induction is generalizing cache paths with
  | nil => exact ⟨[], cache, paths, .nil tail cache, h, rfl⟩
  | cons i is ih =>
    cases h with
    | cached hcache rest =>
      obtain ⟨paths₁, cache₁, paths₂, h₁, h₂, rfl⟩ := ih rest
      exact ⟨_, cache₁, paths₂, .cached hcache h₁, h₂, rfl⟩
    | computed hds hcache hdeps rest =>
      obtain ⟨paths₁, cache₁, paths₂, h₁, h₂, rfl⟩ := ih rest
      exact ⟨_, cache₁, paths₂, .computed hds hcache hdeps h₁, h₂, rfl⟩

theorem weight_pathOf (w : Weights) (i : Nat) (ds : List Nat) (paths : List CriticalPath) :
    (pathOf w i ds paths).weight = w.weight i ∨ ∃ p ∈ paths, (pathOf w i ds paths).weight = p.weight := by
  rcases maxByWeight_cases paths (ofElement (w.element i ds)) with ⟨-, hdefault⟩ | ⟨hmem, -⟩
  · left
    rw [pathOf, hdefault]
    rfl
  · exact .inr ⟨_, hmem, rfl⟩

theorem bounded_update {p : CriticalPath} (hcache : ∀ j q, cache j = some q → Bounded g d j q) (hp : Bounded g d i p) :
    ∀ j q, Function.update cache i (some p) j = some q → Bounded g d j q := by
  intro j q hq
  by_cases hji : j = i
  · subst hji
    rw [update_self] at hq
    cases hq
    exact hp
  · rw [update_of_ne hji] at hq
    exact hcache j q hq

theorem bounded_pathOf (hde : Depends g.dependencies d e) (hie : i ≠ e) (hds : g.dependencies[i]? = some ds)
    (hpaths : ∀ p ∈ paths, ∃ j ∈ ds, ∃ q, Bounded g d j q ∧
      (p.weight = q.weight ∨ p.weight = q.weight + (Weights.ofTwo d e).weight i)) :
    Bounded g d i (pathOf (Weights.ofTwo d e) i ds paths) := by
  by_cases hid : i = d
  · -- Nothing below the first element has a weight.
    subst hid
    have hone : (Weights.ofTwo i e).weight i = 1 := if_pos (.inl rfl)
    refine ⟨?_, fun hreach => absurd .refl hreach⟩
    rcases weight_pathOf (Weights.ofTwo i e) i ds paths with hweight | ⟨p, hp, hweight⟩
    · rw [hweight, hone]
    · obtain ⟨j, hj, q, hq, hpq⟩ := hpaths p hp
      have hzero : q.weight ≤ 0 := hq.le_zero fun hreach =>
        g.acyclic i (Relation.TransGen.tail' hreach ⟨ds, hds, hj⟩)
      rw [hweight]
      rcases hpq with hpq | hpq
      · linarith
      · linarith
  · have hnothing : (Weights.ofTwo d e).weight i = 0 := if_neg (not_or.mpr ⟨hid, hie⟩)
    rcases weight_pathOf (Weights.ofTwo d e) i ds paths with hweight | ⟨p, hp, hweight⟩
    · rw [hnothing] at hweight
      exact ⟨hweight.le.trans zero_le_one, fun _ => hweight.le⟩
    · obtain ⟨j, hj, q, hq, hpq⟩ := hpaths p hp
      rw [hnothing, add_zero, or_self] at hpq
      rw [hpq] at hweight
      refine ⟨hweight.le.trans hq.le_one, fun hreach => hweight.le.trans (hq.le_zero fun hreach' => ?_)⟩
      exact hreach (hreach'.tail ⟨ds, hds, hj⟩)

/-- **A run keeps the bounds** if the second one of the two elements is in the cache, or not below what is asked for. -/
theorem bounded_of_run (hde : Depends g.dependencies d e) (h : Run g (Weights.ofTwo d e) is tail cache paths cache')
    (hcache : ∀ i q, cache i = some q → Bounded g d i q)
    (hsettled : (∃ q, cache e = some q) ∨ ∀ i ∈ is, ¬ Relation.ReflTransGen (Depends g.dependencies) e i) :
    (∀ i q, cache' i = some q → Bounded g d i q) ∧
      ∀ p ∈ paths, ∃ i ∈ is, ∃ q, Bounded g d i q ∧ (p.weight = q.weight ∨ p.weight = q.weight + tail.weight) := by
  induction h with
  | nil => exact ⟨hcache, fun p hp => nomatch hp⟩
  | @cached i is tail q cache cache' paths hq rest ih =>
    obtain ⟨hcache', hpaths⟩ := ih hcache (hsettled.imp_right fun hall j hj => hall j (mem_cons_of_mem i hj))
    refine ⟨hcache', fun p hp => ?_⟩
    rcases mem_cons.mp hp with rfl | hp
    · exact ⟨i, mem_cons_self, q, hcache i q hq, .inr rfl⟩
    · obtain ⟨j, hj, hbound⟩ := hpaths p hp
      exact ⟨j, mem_cons_of_mem i hj, hbound⟩
  | @computed i is ds tail cache cache₁ cache' paths₁ paths hds hnone hdeps rest ih₁ ih₂ =>
    have hie : i ≠ e := by
      rintro rfl
      rcases hsettled with ⟨q, hq⟩ | hall
      · rw [hnone] at hq
        cases hq
      · exact hall i mem_cons_self .refl
    obtain ⟨hcache₁, hpaths₁⟩ := ih₁ hcache
      (hsettled.imp_right fun hall j hj hreach => hall i mem_cons_self (hreach.tail ⟨ds, hds, hj⟩))
    have hbound := bounded_pathOf hde hie hds hpaths₁
    obtain ⟨hcache', hpaths⟩ := ih₂ (bounded_update hcache₁ hbound) <| by
      refine hsettled.imp (fun ⟨q, hq⟩ => ⟨q, ?_⟩) fun hall j hj => hall j (mem_cons_of_mem i hj)
      rw [update_of_ne hie.symm]
      exact hdeps.keeps hq
    refine ⟨hcache', fun p hp => ?_⟩
    rcases mem_cons.mp hp with rfl | hp
    · exact ⟨i, mem_cons_self, _, hbound, .inl rfl⟩
    · obtain ⟨j, hj, hbound⟩ := hpaths p hp
      exact ⟨j, mem_cons_of_mem i hj, hbound⟩

/-- The element that is computed before its dependency. -/
theorem weight_le_one_of_deps (hb : Behind g d e) (hdistinct : g.Distinct) (hds : g.dependencies[e]? = some ds)
    (htail : tail.weight ≤ 1) (h : Run g (Weights.ofTwo d e) ds tail cache paths cache')
    (hcache : ∀ i q, cache i = some q → Bounded g d i q) (hnone : cache d = none) :
    (∀ i q, cache' i = some q → Bounded g d i q) ∧ ∀ p ∈ paths, p.weight ≤ 1 := by
  have hbelow : ∀ f ∈ ds, ¬ Relation.ReflTransGen (Depends g.dependencies) e f := fun f hf hreach =>
    g.acyclic e (Relation.TransGen.tail' hreach ⟨ds, hds, hf⟩)
  have hmem : d ∈ ds := by
    obtain ⟨ds', hds', hd⟩ := hb.depends
    rw [hds] at hds'
    cases hds'
    exact hd
  have hnodup : ds.Nodup := hdistinct ds (mem_of_getElem? hds)
  obtain ⟨front, back, rfl⟩ := append_of_mem hmem
  have hnotMem : d ∉ front ++ back := (nodup_middle.mp hnodup).notMem
  -- No other dependency leads to the one that is listed behind.
  have hother : ∀ f ∈ front ++ back, ¬ Relation.ReflTransGen (Depends g.dependencies) d f := by
    intro f hf hreach
    have hf' : f ∈ front ++ d :: back := by
      rw [mem_append, mem_cons]
      exact (mem_append.mp hf).imp_right .inr
    rcases Relation.reflTransGen_iff_eq_or_transGen.mp hreach with rfl | hreach
    · exact hnotMem hf
    · exact hb.last f ⟨_, hds, hf'⟩ hreach
  have hlight : ∀ {f : Nat} {p : CriticalPath}, f ∈ front ++ back → (∃ q, Bounded g d f q ∧
      (p.weight = q.weight ∨ p.weight = q.weight + tail.weight)) → p.weight ≤ 1 := by
    rintro f p hf ⟨q, hq, hpq⟩
    have hzero := hq.le_zero (hother f hf)
    rcases hpq with hpq | hpq
    · linarith
    · linarith
  obtain ⟨paths₁, cache₁, paths₂, h₁, h₂, rfl⟩ := run_append h
  obtain ⟨hcache₁, hpaths₁⟩ := bounded_of_run hb.depends h₁ hcache
    (.inr fun f hf => hbelow f (mem_append_left _ hf))
  cases h₂ with
  | @cached _ _ _ q _ _ _ hq _ =>
    exfalso
    rcases h₁.new hq with hold | ⟨f, hf, hreach⟩
    · rw [hnone] at hold
      cases hold
    · exact hother f (mem_append_left back hf) hreach
  | @computed _ _ ds' _ _ cache₂ _ paths₃ paths₂ hds' hnone' hdeps rest =>
    -- The tail is lost here.
    have hfirst := bounded_of_run hb.depends (.computed hds' hnone' hdeps (.nil tail _)) hcache₁
      (.inr fun f hf => by
        rw [mem_singleton.mp hf]
        exact hbelow d hmem)
    have hd := hfirst.1 d _ (update_self _ _ _)
    obtain ⟨hcache', hpaths₂⟩ := bounded_of_run hb.depends rest hfirst.1
      (.inr fun f hf => hbelow f (mem_append_right _ (mem_cons_of_mem d hf)))
    refine ⟨hcache', fun p hp => ?_⟩
    rcases mem_append.mp hp with hp | hp
    · obtain ⟨f, hf, hbound⟩ := hpaths₁ p hp
      exact hlight (mem_append_left back hf) hbound
    · rcases mem_cons.mp hp with rfl | hp
      · exact hd.le_one
      · obtain ⟨f, hf, hbound⟩ := hpaths₂ p hp
        exact hlight (mem_append_right front hf) hbound

/-- Every path is at most as heavy as one of the two elements. -/
theorem weight_le_one (hb : Behind g d e) (hdistinct : g.Distinct)
    (h : Run g (Weights.ofTwo d e) (List.range g.dependencies.length) empty (fun _ => none) paths cache) :
    ∀ p ∈ paths, p.weight ≤ 1 := by
  have hlight : ∀ {i : Nat} {p : CriticalPath}, (∃ q, Bounded g d i q ∧
      (p.weight = q.weight ∨ p.weight = q.weight + empty.weight)) → p.weight ≤ 1 := by
    rintro i p ⟨q, hq, hpq⟩
    have hzero : empty.weight = 0 := rfl
    rw [hzero, add_zero, or_self] at hpq
    exact hpq.le.trans hq.le_one
  have hmem : e ∈ List.range g.dependencies.length := mem_range.mpr (Graph.lt_length_of_depends hb.depends).2
  have hsorted : (List.range g.dependencies.length).Pairwise (· < ·) := pairwise_lt_range
  obtain ⟨front, back, hsplit⟩ := append_of_mem hmem
  rw [hsplit] at h hsorted
  have hbefore : ∀ i ∈ front, i < e := fun i hi =>
    (pairwise_append.mp hsorted).2.2 i hi e mem_cons_self
  obtain ⟨paths₁, cache₁, paths₂, h₁, h₂, rfl⟩ := run_append h
  obtain ⟨hcache₁, hpaths₁⟩ := bounded_of_run hb.depends h₁ (fun i q hq => nomatch hq) <| .inr fun i hi hreach => by
    have := le_of_reaches hb.first hreach (hbefore i hi)
    have := hbefore i hi
    omega
  have hnone : ∀ i, e ≤ i → cache₁ i = none := by
    intro i hle
    cases hq : cache₁ i with
    | none => rfl
    | some q =>
      rcases h₁.new hq with hold | ⟨j, hj, hreach⟩
      · cases hold
      · have := le_of_reaches hb.first hreach (hbefore j hj)
        have := hbefore j hj
        omega
  cases h₂ with
  | cached hq _ =>
    rw [hnone e (Nat.le_refl e)] at hq
    cases hq
  | @computed _ _ ds _ _ cache₂ _ paths₃ paths₂ hds _ hdeps rest =>
    have hweight : (Weights.ofTwo d e).weight e = 1 := if_pos (.inr rfl)
    obtain ⟨hcache₂, hpaths₃⟩ := weight_le_one_of_deps hb hdistinct hds (le_of_eq hweight) hdeps hcache₁
      (hnone d hb.lt.le)
    have hbound : Bounded g d e (pathOf (Weights.ofTwo d e) e ds paths₃) := by
      refine ⟨?_, fun hreach => absurd (.single hb.depends) hreach⟩
      rcases weight_pathOf (Weights.ofTwo d e) e ds paths₃ with heq | ⟨p, hp, heq⟩
      · exact (heq.trans hweight).le
      · exact heq.le.trans (hpaths₃ p hp)
    obtain ⟨-, hpaths₂⟩ := bounded_of_run hb.depends rest (bounded_update hcache₂ hbound)
      (.inl ⟨_, update_self _ _ _⟩)
    intro p hp
    rcases mem_append.mp hp with hp | hp
    · obtain ⟨i, -, hbound⟩ := hpaths₁ p hp
      exact hlight hbound
    · rcases mem_cons.mp hp with rfl | hp
      · exact hbound.le_one
      · obtain ⟨i, -, hbound⟩ := hpaths₂ p hp
        exact hlight hbound

theorem not_right_of_behind (hb : Behind g d e) (hdistinct : g.Distinct) :
    ¬ g.Right (Weights.ofTwo d e) := by
  rintro ⟨path, hpath, hcritical⟩
  obtain ⟨paths, cache, hrun, rfl⟩ := run_calculateCriticalPath hpath
  have hle : ((maxByWeight paths).getD empty).weight ≤ 1 := by
    rcases maxByWeight_cases paths empty with ⟨-, hdefault⟩ | ⟨hmem, -⟩
    · rw [hdefault]
      exact zero_le_one
    · exact weight_le_one hb hdistinct hrun _ hmem
  obtain ⟨ds, hds⟩ := g.exists_of_depends hb.depends
  obtain ⟨ds', hds', hd⟩ := hb.depends
  have hchain : g.IsChain (Weights.ofTwo d e)
      ([(Weights.ofTwo d e).element d ds] ++ [(Weights.ofTwo d e).element e ds']) := by
    refine (isChain_concat hds' _).mpr ⟨⟨fun x hx => ?_, isChain_singleton _⟩, fun x hx => ?_⟩
    · rw [mem_singleton.mp hx]
      exact g.mem_elements hds _
    · cases hx
      exact hd
  have hmax := hcritical.maximal _ hchain
  rw [total_append, total_singleton, total_singleton] at hmax
  have hone : (Weights.ofTwo d e).weight d = 1 := if_pos (.inl rfl)
  have hone' : (Weights.ofTwo d e).weight e = 1 := if_pos (.inr rfl)
  have htwo : (Weights.ofTwo d e).weight d + (Weights.ofTwo d e).weight e ≤ 1 := hmax.trans hle
  rw [hone, hone'] at htwo
  norm_num at htwo

/-- **The critical path is right** for all weights if the collection lists dependencies before the elements that depend
    on them; without a dependency named twice, only then. -/
theorem calculateCriticalPath_right_iff (g : Graph) :
    (∀ w, ∃ path, calculateCriticalPath (g.elements w) = some path) ∧
      (g.ListedBefore → ∀ w, g.Right w) ∧
      (g.Distinct → ((∀ w, g.Right w) ↔ g.ListedBefore)) := by
  refine ⟨exists_calculateCriticalPath g, right_of_listedBefore, fun hdistinct => ⟨?_, right_of_listedBefore⟩⟩
  intro hright
  by_contra hlisted
  obtain ⟨d, e, hb⟩ := exists_behind hlisted
  exact not_right_of_behind hb hdistinct (hright (Weights.ofTwo d e))

/-- The first element depends on the second one. -/
def reversedPair : Graph where
  dependencies := [[1], []]
  ne_nil := cons_ne_nil _ _
  inside := by decide
  acyclic := by
    have hstep : ∀ d i, Depends [[1], []] d i → i < d := by
      rintro d i ⟨ds, hds, hd⟩
      match i, hds with
      | 0, hds =>
        cases hds
        rw [mem_singleton.mp hd]
        exact Nat.zero_lt_one
      | 1, hds =>
        cases hds
        cases hd
    intro i hcycle
    have hlt : ∀ d i, Relation.TransGen (Depends [[1], []]) d i → i < d := by
      intro d i hreach
      induction hreach with
      | single hd => exact hstep _ _ hd
      | tail _ hd ih => exact (hstep _ _ hd).trans ih
    exact Nat.lt_irrefl i (hlt i i hcycle)

/-- The path has only one of two elements that follow each other. -/
theorem not_right_reversedPair : ¬ ∀ (g : Graph) (w : Weights), g.Right w := by
  intro h
  obtain ⟨path, hpath, hcritical⟩ := h reversedPair ⟨fun _ => 1, fun _ => zero_le_one⟩
  have hcomputed : calculateCriticalPath (reversedPair.elements ⟨fun _ => 1, fun _ => zero_le_one⟩) =
      some ⟨1, [⟨1, 1, []⟩]⟩ := by decide +kernel
  rw [hcomputed] at hpath
  cases hpath
  have hmax := hcritical.maximal [⟨1, 1, []⟩, ⟨0, 1, [1]⟩] ⟨by decide +kernel, by decide +kernel⟩
  have htotal : Graph.total [⟨1, 1, []⟩, ⟨0, 1, [1]⟩] = 2 := by decide +kernel
  rw [htotal] at hmax
  exact absurd hmax (by decide +kernel)

end

end CriticalPath

end Builra
