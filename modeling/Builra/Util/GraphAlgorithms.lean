import Builra.Lib.BreadthFirst
import Builra.Util.OrderedSet
import Builra.Util.Queue
import Mathlib.Data.List.Chain

namespace Builra

open List Option OrderedSet

/-!
# `Util.GraphAlgorithms` — searches in a finite graph

`minimumDistance` and `shortestPath` are breadth-first searches, `transitiveClosure` a depth-first one. The loops of the
source take fuel here; `none` is a trap or that the fuel does not last, and what a function returns is what it gives
from some fuel on (`Returns`).
-/

namespace GraphAlgorithms

open BreadthFirst

/-- The successor function of a graph with finitely many nodes. -/
structure Graph (T : Type) where
  nodes : Finset T
  successors : T → List T
  closed : ∀ u ∈ nodes, ∀ v ∈ successors u, v ∈ nodes

variable {T P : Type} [DecidableEq T]

/-! ## The source -/

/-- Queue the successors of a node in order, without those that were seen before. -/
def visitSuccessors (search : Search T P) (p : P) (queue : Queue P) (visited : Finset T) :
    Option (Queue P × Finset T) :=
  (search.successors (search.node p)).foldlM
    (fun (queue, visited) succ =>
      -- If we have already seen this node, we don't need to traverse it.
      if succ ∈ visited then some (queue, visited)
      else do
        let queue ← queue.append (search.extend p succ)
        some (queue, insert succ visited))
    (queue, visited)

/-- The loop of both searches. -/
def searchLoop (search : Search T P) (destination : T) : Nat → Queue P → Finset T → Option (Option P)
  | 0, _, _ => none
  | fuel + 1, queue, visited => do
    let (first, queue) ← queue.popFirst
    match first with
    | none => some none
    | some p =>
      -- If this is the destination, we are done.
      if search.node p = destination then some (some p)
      else do
        let (queue, visited) ← visitSuccessors search p queue visited
        searchLoop search destination fuel queue visited

/-- A node with its distance. -/
def distances (successors : T → List T) : Search T (Nat × T) where
  successors := successors
  node := fun (_, node) => node
  extend := fun (distance, _) succ => (distance + 1, succ)

def minimumDistance (source destination : T) (successors : T → List T) (fuel : Nat) : Option (Option Nat) := do
  let result ← searchLoop (distances successors) destination fuel (Queue.ofSequence [(0, source)]) {source}
  some (result.map (fun (distance, _) => distance))

/-- The paths that are queued have a last node. -/
def PathTo (T : Type) : Type := {path : List T // path ≠ []}

def paths (successors : T → List T) : Search T (PathTo T) where
  successors := successors
  node := fun path => path.val.getLast path.property
  extend := fun path succ => ⟨path.val ++ [succ], append_ne_nil_of_right_ne_nil _ (cons_ne_nil succ [])⟩

def shortestPath (source destination : T) (successors : T → List T) (fuel : Nat) : Option (Option (List T)) := do
  let start : PathTo T := ⟨[source], cons_ne_nil source []⟩
  let result ← searchLoop (paths successors) destination fuel (Queue.ofSequence [start]) {source}
  some (result.map (fun path => path.val))

/-- What `transitiveClosure` does with the successors of a node. -/
def appendSuccessors (queue : List T) (result dupes : OrderedSet T) (succs : List T) :
    List T × OrderedSet T × OrderedSet T :=
  succs.foldl
    (fun (queue, result, dupes) succ =>
      let ((inserted, _), result) := result.append succ
      if inserted then (queue ++ [succ], result, dupes) else (queue, result, (dupes.append succ).2))
    (queue, result, dupes)

def closureLoop (successors : T → List T) :
    Nat → List T → OrderedSet T → OrderedSet T → Option (OrderedSet T × OrderedSet T)
  | 0, _, _, _ => none
  | fuel + 1, queue, result, dupes =>
    match queue.getLast? with
    | none => some (result, dupes)
    | some node =>
      let (queue, result, dupes) := appendSuccessors queue.dropLast result dupes (successors node)
      closureLoop successors fuel queue result dupes

def transitiveClosure (nodes : List T) (successors : T → List T) (fuel : Nat) :
    Option (OrderedSet T × OrderedSet T) :=
  closureLoop successors fuel nodes .empty .empty

/-! ## The searches on a list -/

section

variable (search : Search T P) {queue : Queue P} {l : List P} (visited : Finset T)

theorem visitSuccessors_eq (h : Queue.Represents queue l) (p : P) :
    ∃ queue', Queue.Represents queue'
        ((search.successors (search.node p)).foldl (search.visit p) (l, visited)).1 ∧
      visitSuccessors search p queue visited =
        some (queue', ((search.successors (search.node p)).foldl (search.visit p) (l, visited)).2) := by
  unfold visitSuccessors
  generalize search.successors (search.node p) = succs
  induction succs generalizing queue l visited with
  | nil => exact ⟨queue, h, rfl⟩
  | cons succ succs ih =>
    rw [foldlM_cons, foldl_cons]
    by_cases hmem : succ ∈ visited
    · rw [visit_of_mem hmem]
      dsimp only
      rw [if_pos hmem]
      exact ih _ h
    · obtain ⟨queue₁, happend, h₁⟩ := h.append (search.extend p succ)
      rw [visit_of_not_mem hmem]
      dsimp only
      rw [if_neg hmem, happend]
      exact ih _ h₁

/-- The loop is the search, with a queue in the place of the list. -/
theorem searchLoop_eq (destination : T) (fuel : Nat) (h : Queue.Represents queue l) :
    searchLoop search destination fuel queue visited = search.run destination fuel l visited := by
  induction fuel generalizing queue l visited with
  | zero => rfl
  | succ fuel ih =>
    unfold searchLoop Search.run
    cases l with
    | nil =>
      rw [h.popFirst_nil]
      rfl
    | cons p l =>
      obtain ⟨queue₁, hpop, h₁⟩ := h.popFirst_cons
      rw [hpop]
      simp only [bind_eq_bind, bind_some]
      by_cases hp : search.node p = destination
      · rw [if_pos hp, if_pos hp]
      · obtain ⟨queue₂, h₂, hvisit⟩ := visitSuccessors_eq search visited h₁ p
        rw [if_neg hp, if_neg hp, hvisit]
        exact ih _ h₂

end

/-! ## Distances and paths -/

/-- There is an edge from `u` to `v`. -/
def Graph.Edge (graph : Graph T) (u v : T) : Prop := v ∈ graph.successors u

/-- A path from a node to another, along the edges. -/
structure Graph.IsPath (graph : Graph T) (s t : T) (path : List T) : Prop where
  head : path.head? = some s
  last : path.getLast? = some t
  chain : path.IsChain graph.Edge

omit [DecidableEq T] in
theorem Graph.IsPath.concat {graph : Graph T} {s u v : T} {path : List T} (h : graph.IsPath s u path)
    (hedge : graph.Edge u v) : graph.IsPath s v (path ++ [v]) where
  head := by
    rw [head?_append, h.head]
    rfl
  last := getLast?_concat
  chain := by
    rw [isChain_append]
    refine ⟨h.chain, isChain_singleton v, fun x hx y hy => ?_⟩
    rw [h.last] at hx
    obtain rfl : u = x := some.inj hx
    obtain rfl : v = y := some.inj hy
    exact hedge

omit [DecidableEq T] in
/-- A path is a walk along its edges. -/
theorem Graph.IsPath.walk {graph : Graph T} {s : T} {path : List T} :
    ∀ {t : T}, graph.IsPath s t path → Walk graph.Edge (path.length - 1) s t := by
  induction path using List.reverseRecOn with
  | nil =>
    intro t h
    exact absurd h.head (some_ne_none s).symm
  | append_singleton path v ih =>
    intro t h
    obtain rfl : v = t := some.inj (getLast?_concat.symm.trans h.last)
    cases hlast : path.getLast? with
    | none =>
      obtain rfl := getLast?_eq_none_iff.mp hlast
      obtain rfl : v = s := some.inj h.head
      exact .refl v
    | some u =>
      have hne : path ≠ [] := by
        rintro rfl
        exact absurd hlast (some_ne_none u).symm
      obtain ⟨hchain, -, hedge⟩ := isChain_append.mp h.chain
      have hfront : graph.IsPath s u path := by
        refine ⟨?_, hlast, hchain⟩
        rw [← h.head, head?_append_of_ne_nil _ hne]
      have hlength : (path ++ [v]).length - 1 = path.length - 1 + 1 := by
        have hpos : 0 < path.length := length_pos_iff.mpr hne
        rw [length_append, length_singleton]
        omega
      rw [hlength]
      exact .tail (ih hfront) (hedge u hlast v rfl)

omit [DecidableEq T] in
theorem distances_measured (graph : Graph T) (s : T) :
    (distances graph.successors).Measured s (fun p => p.1) (fun p => Walk graph.Edge p.1 s p.2) where
  node_extend := fun _ _ => rfl
  depth_extend := fun _ _ => rfl
  good_extend := fun _ _ hwalk hedge => .tail hwalk hedge
  walk := fun _ hwalk => hwalk

variable (graph : Graph T)

omit [DecidableEq T] in
theorem paths_measured (s : T) :
    (paths graph.successors).Measured s (fun path => path.val.length - 1)
      (fun path => graph.IsPath s (path.val.getLast path.property) path.val) where
  node_extend := fun _ _ => getLast_append_singleton _
  depth_extend := by
    intro path w
    have hpos : 0 < path.val.length := length_pos_iff.mpr path.property
    show (path.val ++ [w]).length - 1 = path.val.length - 1 + 1
    rw [length_append, length_singleton]
    omega
  good_extend := by
    intro path w hpath hedge
    show graph.IsPath s ((path.val ++ [w]).getLast _) (path.val ++ [w])
    rw [getLast_append_singleton]
    exact hpath.concat hedge
  walk := fun _ hpath => hpath.walk

/-- Enough fuel for a search. -/
theorem remaining_start {s : T} (hs : s ∈ graph.nodes) (p : P) :
    remaining graph.nodes ([p], {s}) < graph.nodes.card + 1 := by
  have hcard := Finset.card_sdiff_add_card_eq_card (Finset.singleton_subset_iff.mpr hs)
  rw [Finset.card_singleton] at hcard
  unfold remaining
  dsimp only
  rw [length_singleton]
  omega

/-- What a function gives, from some fuel on. -/
def Returns {α : Type} (f : Nat → Option α) (result : α) : Prop := ∃ enough, ∀ fuel, enough ≤ fuel → f fuel = some result

/-- What a search from a node gives. -/
theorem searchLoop_start {search : Search T P} {depth : P → Nat} {Good : P → Prop} {s : T}
    (hs : s ∈ graph.nodes) (hsucc : search.successors = graph.successors) (hm : search.Measured s depth Good) {p : P}
    (hnode : search.node p = s) (hdepth : depth p = 0) (hgood : Good p) (t : T) :
    (∃ p', Returns (fun fuel => searchLoop search t fuel (Queue.ofSequence [p]) {s}) (some p') ∧ search.node p' = t ∧
        Good p' ∧ ∀ n, Walk graph.Edge n s t → depth p' ≤ n) ∨
      (Returns (fun fuel => searchLoop search t fuel (Queue.ofSequence [p]) {s}) none ∧
        ∀ n, ¬ Walk graph.Edge n s t) := by
  have hedge : search.Edge = graph.Edge := by
    unfold Search.Edge Graph.Edge
    rw [hsucc]
  have hclosed : ∀ u ∈ graph.nodes, ∀ w, search.Edge u w → w ∈ graph.nodes := by
    rw [hedge]
    exact graph.closed
  have hreturns : ∀ {result}, search.run t (graph.nodes.card + 1) [p] {s} = some result →
      Returns (fun fuel => searchLoop search t fuel (Queue.ofSequence [p]) {s}) result := by
    intro result hrun
    refine ⟨graph.nodes.card + 1, fun fuel hfuel => ?_⟩
    show searchLoop search t fuel (Queue.ofSequence [p]) {s} = some result
    rw [searchLoop_eq search {s} t fuel (Queue.represents_ofSequence [p])]
    exact search.run_mono hfuel hrun
  have hstart := Search.Sound.start search t hnode hdepth hgood
  have hrun := Search.Sound.run hm hs hclosed (graph.nodes.card + 1) hstart (remaining_start graph hs p)
  rw [hedge] at hrun
  rcases hrun with ⟨p', hrun, hp', hgood', hleast⟩ | ⟨hrun, hnone⟩
  · exact .inl ⟨p', hreturns hrun, hp', hgood', hleast⟩
  · exact .inr ⟨hreturns hrun, hnone⟩

theorem minimumDistance_returns {s : T} (hs : s ∈ graph.nodes) (t : T) :
    (∃ n, Returns (minimumDistance s t graph.successors) (some n) ∧ IsLeast {n | Walk graph.Edge n s t} n) ∨
      (Returns (minimumDistance s t graph.successors) none ∧ ∀ n, ¬ Walk graph.Edge n s t) := by
  rcases searchLoop_start graph hs rfl (distances_measured graph s) (p := (0, s)) rfl rfl (.refl s) t with
    ⟨⟨n, v⟩, ⟨enough, hrun⟩, hv, hwalk, hleast⟩ | ⟨⟨enough, hrun⟩, hnone⟩
  · obtain rfl : v = t := hv
    refine .inl ⟨n, ⟨enough, fun fuel hfuel => ?_⟩, hwalk, fun m hm => hleast m hm⟩
    have hfound := hrun fuel hfuel
    dsimp only at hfound
    unfold minimumDistance
    rw [hfound]
    rfl
  · refine .inr ⟨⟨enough, fun fuel hfuel => ?_⟩, hnone⟩
    have hfound := hrun fuel hfuel
    dsimp only at hfound
    unfold minimumDistance
    rw [hfound]
    rfl

theorem shortestPath_returns {s : T} (hs : s ∈ graph.nodes) (t : T) :
    (∃ path n, Returns (shortestPath s t graph.successors) (some path) ∧ graph.IsPath s t path ∧ path.length = n + 1 ∧
        IsLeast {n | Walk graph.Edge n s t} n) ∨
      (Returns (shortestPath s t graph.successors) none ∧ ∀ n, ¬ Walk graph.Edge n s t) := by
  have hsingle : graph.IsPath s s [s] := ⟨rfl, rfl, isChain_singleton s⟩
  rcases searchLoop_start graph hs rfl (paths_measured graph s) (p := ⟨[s], cons_ne_nil s []⟩) rfl rfl
    hsingle t with ⟨path, ⟨enough, hrun⟩, hlast, hpath, hleast⟩ | ⟨⟨enough, hrun⟩, hnone⟩
  · have hlast' : path.val.getLast path.property = t := hlast
    rw [hlast'] at hpath
    have hlength : path.val.length = path.val.length - 1 + 1 := by
      have hpos : 0 < path.val.length := length_pos_iff.mpr path.property
      omega
    refine .inl ⟨path.val, path.val.length - 1, ⟨enough, fun fuel hfuel => ?_⟩, hpath, hlength, hpath.walk,
      fun m hm => hleast m hm⟩
    have hfound := hrun fuel hfuel
    dsimp only at hfound
    unfold shortestPath
    dsimp only
    rw [hfound]
    rfl
  · refine .inr ⟨⟨enough, fun fuel hfuel => ?_⟩, hnone⟩
    have hfound := hrun fuel hfuel
    dsimp only at hfound
    unfold shortestPath
    dsimp only
    rw [hfound]
    rfl

/-! ## The closure -/

/-- What the loop over the successors of a node does: what it adds to the result, it queues. -/
theorem appendSuccessors_spec (succs : List T) : ∀ (queue : List T) (result dupes : OrderedSet T),
    ∃ added, (appendSuccessors queue result dupes succs).1 = queue ++ added ∧
      (appendSuccessors queue result dupes succs).2.1.elements = result.elements ++ added ∧
      (∀ w ∈ added, w ∈ succs) ∧
      ∀ w ∈ succs, w ∈ (appendSuccessors queue result dupes succs).2.1.elements := by
  unfold appendSuccessors
  induction succs with
  | nil =>
    intro queue result dupes
    exact ⟨[], (append_nil _).symm, (append_nil _).symm, fun w hw => absurd hw not_mem_nil,
      fun w hw => absurd hw not_mem_nil⟩
  | cons succ succs ih =>
    intro queue result dupes
    rw [foldl_cons]
    cases hcontains : result.contains succ with
    | true =>
      obtain ⟨hinserted, hresult⟩ := append_of_contains hcontains
      dsimp only
      rw [hinserted, hresult, if_neg Bool.false_ne_true]
      obtain ⟨added, hqueue, helements, hadded, hall⟩ := ih queue result (dupes.append succ).2
      refine ⟨added, hqueue, helements, fun w hw => mem_cons_of_mem _ (hadded w hw), fun w hw => ?_⟩
      rcases mem_cons.mp hw with rfl | hw
      · rw [helements]
        exact mem_append_left _ (contains_iff.mp hcontains)
      · exact hall w hw
    | false =>
      obtain ⟨hinserted, hresult⟩ := append_of_not_contains hcontains
      dsimp only
      rw [hinserted, if_pos rfl]
      obtain ⟨added, hqueue, helements, hadded, hall⟩ := ih (queue ++ [succ]) (result.append succ).2 dupes
      rw [hresult, append_assoc] at helements
      refine ⟨succ :: added, ?_, helements, fun w hw => ?_, fun w hw => ?_⟩
      · rw [hqueue, append_assoc]
        rfl
      · rcases mem_cons.mp hw with rfl | hw
        · exact mem_cons_self
        · exact mem_cons_of_mem _ (hadded w hw)
      · rcases mem_cons.mp hw with rfl | hw
        · rw [helements]
          exact mem_append_right _ mem_cons_self
        · exact hall w hw

/-- Between two turns: a node that was given or found is queued, or its successors were found. -/
structure Closing (graph : Graph T) (nodes : List T) (queue : List T) (result : OrderedSet T) : Prop where
  reached : ∀ v ∈ result.elements, ∃ u ∈ nodes, Relation.TransGen graph.Edge u v
  queued : ∀ u ∈ queue, u ∈ nodes ∨ u ∈ result.elements
  closed : ∀ u, u ∈ nodes ∨ u ∈ result.elements → u ∈ queue ∨ ∀ w, graph.Edge u w → w ∈ result.elements

variable {graph : Graph T} {nodes queue : List T} {result : OrderedSet T}

theorem Closing.start (graph : Graph T) (nodes : List T) : Closing graph nodes nodes .empty where
  reached := fun _ hv => absurd hv not_mem_nil
  queued := fun _ hu => .inl hu
  closed := fun _ hu => hu.elim .inl (fun hu => absurd hu not_mem_nil)

/-- A turn keeps the invariant. -/
theorem Closing.turn {node : T} {added : List T} {result' : OrderedSet T}
    (h : Closing graph nodes (queue ++ [node]) result) (helements : result'.elements = result.elements ++ added)
    (hadded : ∀ w ∈ added, graph.Edge node w) (hall : ∀ w, graph.Edge node w → w ∈ result'.elements) :
    Closing graph nodes (queue ++ added) result' := by
  have hsub : ∀ {w}, w ∈ result.elements → w ∈ result'.elements := by
    intro w hw
    rw [helements]
    exact mem_append_left _ hw
  have hnode := h.queued node (mem_append_right _ (mem_singleton_self node))
  refine ⟨fun v hv => ?_, fun u hu => ?_, fun u hu => ?_⟩
  · rw [helements] at hv
    rcases mem_append.mp hv with hv | hv
    · exact h.reached v hv
    · rcases hnode with hnode | hnode
      · exact ⟨node, hnode, .single (hadded v hv)⟩
      · obtain ⟨u, hu, hreach⟩ := h.reached node hnode
        exact ⟨u, hu, hreach.tail (hadded v hv)⟩
  · rcases mem_append.mp hu with hu | hu
    · exact (h.queued u (mem_append_left _ hu)).imp_right hsub
    · rw [helements]
      exact .inr (mem_append_right _ hu)
  · -- what is new is queued; what was there before is queued still, expanded, or the node of this turn
    have hold : u ∈ nodes ∨ u ∈ result.elements → u ∈ queue ++ added ∨ ∀ w, graph.Edge u w → w ∈ result'.elements := by
      intro hu
      rcases h.closed u hu with hqueued | hexpanded
      · rcases mem_append.mp hqueued with hqueued | hqueued
        · exact .inl (mem_append_left _ hqueued)
        · obtain rfl := mem_singleton.mp hqueued
          exact .inr hall
      · exact .inr (fun w hw => hsub (hexpanded w hw))
    rcases hu with hu | hu
    · exact hold (.inl hu)
    · rw [helements] at hu
      rcases mem_append.mp hu with hu | hu
      · exact hold (.inr hu)
      · exact .inl (mem_append_right _ hu)

/-- At the end, what is reached was found. -/
theorem Closing.mem_iff (h : Closing graph nodes [] result) (v : T) :
    v ∈ result.elements ↔ ∃ u ∈ nodes, Relation.TransGen graph.Edge u v := by
  have hclosed : ∀ u, u ∈ nodes ∨ u ∈ result.elements → ∀ w, graph.Edge u w → w ∈ result.elements := by
    intro u hu
    rcases h.closed u hu with hqueued | hexpanded
    · exact absurd hqueued not_mem_nil
    · exact hexpanded
  constructor
  · exact h.reached v
  · rintro ⟨u, hu, hreach⟩
    induction hreach with
    | single hedge => exact hclosed u (.inl hu) _ hedge
    | tail _ hedge ih => exact hclosed _ (.inr ih) _ hedge

theorem length_le_card {l : List T} (hl : l.Nodup) {s : Finset T} (hs : ∀ v ∈ l, v ∈ s) : l.length ≤ s.card := by
  rw [← toFinset_card_of_nodup hl]
  exact Finset.card_le_card (fun v hv => hs v (mem_toFinset.mp hv))

theorem closureLoop_succ (successors : T → List T) (fuel : Nat) :
    ∀ {queue : List T} {result dupes : OrderedSet T} {r : OrderedSet T × OrderedSet T},
      closureLoop successors fuel queue result dupes = some r →
      closureLoop successors (fuel + 1) queue result dupes = some r := by
  induction fuel with
  | zero =>
    intro queue result dupes r h
    cases h
  | succ fuel ih =>
    intro queue result dupes r h
    unfold closureLoop at h ⊢
    cases hlast : queue.getLast? with
    | none =>
      rw [hlast] at h
      exact h
    | some node =>
      rw [hlast] at h
      exact ih h

/-- The loop ends: a turn takes a node from the queue, and puts as many nodes into the queue as into the result. -/
theorem closureLoop_spec (hnodes : ∀ u ∈ nodes, u ∈ graph.nodes) (fuel : Nat) :
    ∀ {queue : List T} {result : OrderedSet T} (dupes : OrderedSet T), Closing graph nodes queue result →
      (∀ v ∈ result.elements, v ∈ graph.nodes) →
      queue.length + (graph.nodes.card - result.elements.length) < fuel →
      ∃ result' dupes', closureLoop graph.successors fuel queue result dupes = some (result', dupes') ∧
        Closing graph nodes [] result' := by
  induction fuel with
  | zero => exact fun _ _ _ hfuel => absurd hfuel (Nat.not_lt_zero _)
  | succ fuel ih =>
    intro queue result dupes h hresult hfuel
    unfold closureLoop
    cases hlast : queue.getLast? with
    | none =>
      obtain rfl := getLast?_eq_none_iff.mp hlast
      exact ⟨result, dupes, rfl, h⟩
    | some node =>
      have hqueue : queue.dropLast ++ [node] = queue := dropLast_append_getLast? node hlast
      obtain ⟨added, hqueue', helements, hadded, hall⟩ :=
        appendSuccessors_spec (graph.successors node) queue.dropLast result dupes
      rw [← hqueue] at h hfuel
      have hnode : node ∈ graph.nodes := by
        rcases h.queued node (mem_append_right _ (mem_singleton_self node)) with hmem | hmem
        · exact hnodes node hmem
        · exact hresult node hmem
      have hresult' : ∀ v ∈ (appendSuccessors queue.dropLast result dupes (graph.successors node)).2.1.elements,
          v ∈ graph.nodes := by
        intro v hv
        rw [helements] at hv
        rcases mem_append.mp hv with hv | hv
        · exact hresult v hv
        · exact graph.closed node hnode v (hadded v hv)
      have hle := length_le_card (nodup _) hresult'
      have hturn := h.turn helements hadded hall
      rw [← hqueue'] at hturn
      apply ih _ hturn hresult'
      rw [helements, length_append] at hle ⊢
      rw [length_append, length_singleton] at hfuel
      rw [hqueue', length_append]
      omega

theorem transitiveClosure_returns (hnodes : ∀ u ∈ nodes, u ∈ graph.nodes) :
    ∃ result dupes, Returns (transitiveClosure nodes graph.successors) (result, dupes) ∧
      ∀ v, v ∈ result.elements ↔ ∃ u ∈ nodes, Relation.TransGen graph.Edge u v := by
  have hfuel : nodes.length + (graph.nodes.card - (empty : OrderedSet T).elements.length) <
      nodes.length + graph.nodes.card + 1 := by
    show nodes.length + (graph.nodes.card - 0) < nodes.length + graph.nodes.card + 1
    omega
  obtain ⟨result, dupes, hloop, hclosing⟩ := closureLoop_spec hnodes (nodes.length + graph.nodes.card + 1) .empty
    (Closing.start graph nodes) (fun v hv => absurd hv not_mem_nil) hfuel
  refine ⟨result, dupes, ⟨nodes.length + graph.nodes.card + 1, fun fuel hle => ?_⟩, hclosing.mem_iff⟩
  unfold transitiveClosure
  induction hle with
  | refl => exact hloop
  | step _ ih => exact closureLoop_succ graph.successors _ ih

/-! ## The results -/

/-- **The searches are right**: the distance is the least number of steps, the path is one of that length, and there is
neither exactly if there is no walk. The closure has each node that is reached in one step or more, once. -/
theorem searches_return (graph : Graph T) {s : T} (hs : s ∈ graph.nodes) (t : T) {nodes : List T}
    (hnodes : ∀ u ∈ nodes, u ∈ graph.nodes) :
    (∃ distance path,
      Returns (minimumDistance s t graph.successors) distance ∧ Returns (shortestPath s t graph.successors) path ∧
      (∀ n, distance = some n ↔ IsLeast {n | Walk graph.Edge n s t} n) ∧
      (distance = none ↔ ∀ n, ¬ Walk graph.Edge n s t) ∧ (path = none ↔ distance = none) ∧
      ∀ p, path = some p → graph.IsPath s t p ∧ ∃ n, distance = some n ∧ p.length = n + 1) ∧
    ∃ result dupes, Returns (transitiveClosure nodes graph.successors) (result, dupes) ∧ result.elements.Nodup ∧
      ∀ v, v ∈ result.elements ↔ ∃ u ∈ nodes, Relation.TransGen graph.Edge u v := by
  constructor
  · rcases minimumDistance_returns graph hs t with ⟨n, hdistance, hleast⟩ | ⟨hdistance, hnone⟩
    · rcases shortestPath_returns graph hs t with ⟨path, m, hshort, hpath, hlength, hleast'⟩ | ⟨-, hnone⟩
      · obtain rfl : n = m := hleast.unique hleast'
        refine ⟨some n, some path, hdistance, hshort, fun m => ⟨?_, fun hm => ?_⟩, ?_, ?_, ?_⟩
        · rintro ⟨⟩
          exact hleast
        · rw [hleast.unique hm]
        · exact iff_of_false (some_ne_none n) (fun hnone => hnone n hleast.1)
        · exact iff_of_false (some_ne_none path) (some_ne_none n)
        · rintro p ⟨⟩
          exact ⟨hpath, n, rfl, hlength⟩
      · exact absurd hleast.1 (hnone n)
    · rcases shortestPath_returns graph hs t with ⟨path, m, -, -, -, hleast'⟩ | ⟨hshort, -⟩
      · exact absurd hleast'.1 (hnone m)
      · refine ⟨none, none, hdistance, hshort, fun m => ?_, iff_of_true rfl hnone, iff_of_true rfl rfl, fun p hp => ?_⟩
        · exact iff_of_false (some_ne_none m).symm (fun hm => hnone m hm.1)
        · exact absurd hp (some_ne_none p).symm
  · obtain ⟨result, dupes, hreturns, hmem⟩ := transitiveClosure_returns hnodes
    exact ⟨result, dupes, hreturns, result.nodup, hmem⟩

/-- Three nodes, two of them on a cycle: `0` leads to `1`, and twice to `2`; `1` and `2` lead to each other. -/
def triangle : Graph Nat where
  nodes := {0, 1, 2}
  successors := fun n => if n = 0 then [1, 2, 2] else if n = 1 then [2] else if n = 2 then [1] else []
  closed := by decide

/-- There are a path between two of these nodes and a closure of one. -/
theorem searches_return_triangle :
    (∃ distance path,
      Returns (minimumDistance 0 2 triangle.successors) distance ∧ Returns (shortestPath 0 2 triangle.successors) path ∧
      (∀ n, distance = some n ↔ IsLeast {n | Walk triangle.Edge n 0 2} n) ∧
      (distance = none ↔ ∀ n, ¬ Walk triangle.Edge n 0 2) ∧ (path = none ↔ distance = none) ∧
      ∀ p, path = some p → triangle.IsPath 0 2 p ∧ ∃ n, distance = some n ∧ p.length = n + 1) ∧
    ∃ result dupes, Returns (transitiveClosure [0] triangle.successors) (result, dupes) ∧ result.elements.Nodup ∧
      ∀ v, v ∈ result.elements ↔ ∃ u ∈ [0], Relation.TransGen triangle.Edge u v :=
  searches_return triangle (by decide) 2 (by decide)

end GraphAlgorithms

end Builra
