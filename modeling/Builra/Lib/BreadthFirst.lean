import Mathlib.Data.Finset.Card
import Mathlib.Order.Bounds.Basic

/-!
# `Lib.BreadthFirst` — breadth-first searches

A search takes what was queued first, and queues what it makes for each successor that was not visited before. What is
queued has a node at its end and a depth; the queue is sorted by depth, and spans two depths at most. So the first
that ends at the destination is the least deep one (`Sound.search`).
-/

namespace BreadthFirst

open List Nat

variable {Node Payload : Type*}

/-! ## Walks -/

/-- The nodes that are `n` steps from each other. -/
inductive Walk (R : Node → Node → Prop) : Nat → Node → Node → Prop
  | refl (a : Node) : Walk R 0 a a
  | tail {n a b c} : Walk R n a b → R b c → Walk R (n + 1) a c

/-- A walk that leaves a set has a first step out of it. -/
theorem Walk.exists_leaves {R : Node → Node → Prop} {n : Nat} {a c : Node} (h : Walk R n a c) {s : Set Node}
    (ha : a ∈ s) (hc : c ∉ s) : ∃ k u v, k < n ∧ Walk R k a u ∧ R u v ∧ u ∈ s ∧ v ∉ s := by
  induction h with
  | refl => exact absurd ha hc
  | @tail n a b c hwalk hstep ih =>
    by_cases hb : b ∈ s
    · exact ⟨n, b, c, lt_succ_self n, hwalk, hstep, hb, hc⟩
    · obtain ⟨k, u, v, hk, hrest⟩ := ih ha hb
      exact ⟨k, u, v, lt_succ_of_lt hk, hrest⟩

/-! ## The search -/

/-- What is queued, and how it goes on at a successor of its node. -/
structure Search (Node Payload : Type*) where
  successors : Node → List Node
  node : Payload → Node
  extend : Payload → Node → Payload

variable [DecidableEq Node]

namespace Search

/-- Queue what is made for a node, if the node was not visited. -/
def visit (search : Search Node Payload) (p : Payload) (s : List Payload × Finset Node) (w : Node) :
    List Payload × Finset Node :=
  if w ∈ s.2 then s else (s.1 ++ [search.extend p w], insert w s.2)

/-- Take what was queued first until one is at the destination. -/
def run (search : Search Node Payload) (destination : Node) :
    Nat → List Payload → Finset Node → Option (Option Payload)
  | 0, _, _ => none
  | _ + 1, [], _ => some none
  | fuel + 1, p :: pending, visited =>
    if search.node p = destination then some (some p)
    else
      let s := (search.successors (search.node p)).foldl (search.visit p) (pending, visited)
      search.run destination fuel s.1 s.2

/-- The node `w` is a successor of `u`. -/
def Edge (search : Search Node Payload) (u w : Node) : Prop := w ∈ search.successors u

/-- The depth counts the steps from the source, for all that is good. -/
structure Measured (search : Search Node Payload) (source : Node) (depth : Payload → Nat) (Good : Payload → Prop) :
    Prop where
  node_extend : ∀ p w, search.node (search.extend p w) = w
  depth_extend : ∀ p w, depth (search.extend p w) = depth p + 1
  good_extend : ∀ p w, Good p → search.Edge (search.node p) w → Good (search.extend p w)
  walk : ∀ p, Good p → Walk search.Edge (depth p) source (search.node p)

/-! ## The invariant -/

/-- What holds of the queue and the visited nodes, whether or not a node is being expanded. -/
structure Queued (search : Search Node Payload) (source : Node) (depth : Payload → Nat) (Good : Payload → Prop)
    (pending : List Payload) (visited : Finset Node) : Prop where
  source_mem : source ∈ visited
  good : ∀ p ∈ pending, Good p
  node_mem : ∀ p ∈ pending, search.node p ∈ visited
  least : ∀ p ∈ pending, ∀ n, Walk search.Edge n source (search.node p) → depth p ≤ n
  sorted : pending.Pairwise (fun p q => depth p ≤ depth q)

/-- A node that was expanded: it is not the destination, and all its successors are visited. -/
def Expanded (search : Search Node Payload) (destination : Node) (visited : Finset Node) (u : Node) : Prop :=
  u ≠ destination ∧ ∀ w, search.Edge u w → w ∈ visited

/-- Between two turns: a visited node is queued or was expanded. -/
structure Sound (search : Search Node Payload) (source destination : Node) (depth : Payload → Nat)
    (Good : Payload → Prop) (pending : List Payload) (visited : Finset Node) : Prop
    extends Queued search source depth Good pending visited where
  closed : ∀ u ∈ visited, (∃ p ∈ pending, search.node p = u) ∨ search.Expanded destination visited u
  band : ∀ p ∈ pending.head?, ∀ q ∈ pending, depth q ≤ depth p + 1

/-- While the node of `p` is expanded: what is not visited is farther away than this node. -/
structure Expanding (search : Search Node Payload) (source destination : Node) (depth : Payload → Nat)
    (Good : Payload → Prop) (p : Payload) (pending : List Payload) (visited : Finset Node) : Prop
    extends Queued search source depth Good pending visited where
  current : Good p
  closed : ∀ u ∈ visited, u = search.node p ∨ (∃ q ∈ pending, search.node q = u) ∨
    search.Expanded destination visited u
  band : ∀ q ∈ pending, depth p ≤ depth q ∧ depth q ≤ depth p + 1
  far : ∀ w, w ∉ visited → ∀ n, Walk search.Edge n source w → depth p < n

end Search

open Search

variable {search : Search Node Payload} {source destination : Node} {depth : Payload → Nat} {Good : Payload → Prop}
  {p : Payload} {pending : List Payload} {visited : Finset Node}

variable {w : Node} {nodes : Finset Node}

theorem visit_of_mem (h : w ∈ visited) : search.visit p (pending, visited) w = (pending, visited) :=
  if_pos h

theorem visit_of_not_mem (h : w ∉ visited) :
    search.visit p (pending, visited) w = (pending ++ [search.extend p w], insert w visited) :=
  if_neg h

omit [DecidableEq Node] in
theorem Search.Expanded.mono {visited' : Finset Node} {u : Node} (h : search.Expanded destination visited u)
    (hsub : visited ⊆ visited') : search.Expanded destination visited' u :=
  ⟨h.1, fun w hw => hsub (h.2 w hw)⟩

omit [DecidableEq Node] in
/-- What is queued starts with the source alone. -/
theorem Search.Sound.start (search : Search Node Payload) (destination : Node) (hnode : search.node p = source)
    (hdepth : depth p = 0) (hgood : Good p) :
    Sound search source destination depth Good [p] {source} where
  source_mem := Finset.mem_singleton_self source
  good := by
    intro q hq
    rw [mem_singleton.mp hq]
    exact hgood
  node_mem := by
    intro q hq
    rw [mem_singleton.mp hq, hnode]
    exact Finset.mem_singleton_self source
  least := by
    intro q hq n _
    rw [mem_singleton.mp hq, hdepth]
    exact zero_le n
  sorted := pairwise_singleton _ _
  closed := by
    intro u hu
    rw [Finset.mem_singleton.mp hu]
    exact .inl ⟨p, mem_singleton_self p, hnode⟩
  band := by
    intro q hq q' hq'
    obtain rfl : p = q := Option.some.inj hq
    rw [mem_singleton.mp hq']
    exact le_succ _

omit [DecidableEq Node] in
/-- Before its node is expanded, no walk to a node that is not visited is as short as the first in the queue is deep. -/
theorem Search.Sound.far (h : Sound search source destination depth Good (p :: pending) visited) (hw : w ∉ visited)
    {n : Nat} (hwalk : Walk search.Edge n source w) : depth p < n := by
  -- the walk leaves the visited nodes behind one that is still queued
  obtain ⟨k, u, v, hk, hwalk', hstep, hu, hv⟩ := hwalk.exists_leaves (s := ↑visited) h.source_mem hw
  rcases h.closed u hu with ⟨q, hq, rfl⟩ | ⟨-, hall⟩
  · have hleast : depth q ≤ k := h.least q hq k hwalk'
    have hfirst : depth p ≤ depth q := by
      rcases mem_cons.mp hq with rfl | hq
      · exact le_refl _
      · exact (pairwise_cons.mp h.sorted).1 q hq
    omega
  · exact absurd (hall v hstep) hv

omit [DecidableEq Node] in
theorem Search.Sound.expanding (h : Sound search source destination depth Good (p :: pending) visited) :
    Expanding search source destination depth Good p pending visited where
  source_mem := h.source_mem
  good := fun q hq => h.good q (mem_cons_of_mem _ hq)
  node_mem := fun q hq => h.node_mem q (mem_cons_of_mem _ hq)
  least := fun q hq => h.least q (mem_cons_of_mem _ hq)
  sorted := (pairwise_cons.mp h.sorted).2
  current := h.good p mem_cons_self
  closed := by
    intro u hu
    rcases h.closed u hu with ⟨q, hq, rfl⟩ | hexpanded
    · rcases mem_cons.mp hq with rfl | hq
      · exact .inl rfl
      · exact .inr (.inl ⟨q, hq, rfl⟩)
    · exact .inr (.inr hexpanded)
  band := fun q hq => ⟨(pairwise_cons.mp h.sorted).1 q hq, h.band p rfl q (mem_cons_of_mem _ hq)⟩
  far := fun _ hw _ hwalk => h.far hw hwalk

section

variable (hm : Measured search source depth Good)
include hm

/-- Visiting a successor keeps what holds while the node is expanded. -/
theorem Search.Expanding.visit
    (h : Expanding search source destination depth Good p pending visited) (hw : search.Edge (search.node p) w) :
    Expanding search source destination depth Good p (search.visit p (pending, visited) w).1
      (search.visit p (pending, visited) w).2 := by
  by_cases hmem : w ∈ visited
  · rw [visit_of_mem hmem]
    exact h
  · rw [visit_of_not_mem hmem]
    have hsub : visited ⊆ insert w visited := Finset.subset_insert w visited
    have hdepth : depth (search.extend p w) = depth p + 1 := hm.depth_extend p w
    refine { source_mem := hsub h.source_mem, good := ?_, node_mem := ?_, least := ?_, sorted := ?_, current := h.current,
             closed := ?_, band := ?_, far := ?_ }
    · intro q hq
      rcases mem_append.mp hq with hq | hq
      · exact h.good q hq
      · rw [mem_singleton.mp hq]
        exact hm.good_extend p w h.current hw
    · intro q hq
      rcases mem_append.mp hq with hq | hq
      · exact hsub (h.node_mem q hq)
      · rw [mem_singleton.mp hq, hm.node_extend]
        exact Finset.mem_insert_self w visited
    · intro q hq n hwalk
      rcases mem_append.mp hq with hq | hq
      · exact h.least q hq n hwalk
      · -- the new one is one step deeper than `p`, and its node was farther away than that of `p`
        rw [mem_singleton.mp hq, hm.node_extend] at hwalk
        rw [mem_singleton.mp hq, hdepth]
        exact h.far w hmem n hwalk
    · rw [pairwise_append]
      refine ⟨h.sorted, pairwise_singleton _ _, fun q hq q' hq' => ?_⟩
      rw [mem_singleton.mp hq', hdepth]
      exact (h.band q hq).2
    · intro u hu
      rcases Finset.mem_insert.mp hu with rfl | hu
      · exact .inr (.inl ⟨_, mem_append_right _ (mem_singleton_self _), hm.node_extend p u⟩)
      · rcases h.closed u hu with rfl | ⟨q, hq, rfl⟩ | hexpanded
        · exact .inl rfl
        · exact .inr (.inl ⟨q, mem_append_left _ hq, rfl⟩)
        · exact .inr (.inr (hexpanded.mono hsub))
    · intro q hq
      rcases mem_append.mp hq with hq | hq
      · exact h.band q hq
      · rw [mem_singleton.mp hq, hdepth]
        exact ⟨le_succ _, le_refl _⟩
    · exact fun v hv => h.far v (fun hv' => hv (hsub hv'))

/-- After all successors, they are visited. -/
theorem Search.Expanding.foldl (ws : List Node) :
    ∀ {pending : List Payload} {visited : Finset Node},
      Expanding search source destination depth Good p pending visited → (∀ w ∈ ws, search.Edge (search.node p) w) →
      Expanding search source destination depth Good p (ws.foldl (search.visit p) (pending, visited)).1
          (ws.foldl (search.visit p) (pending, visited)).2 ∧
        visited ⊆ (ws.foldl (search.visit p) (pending, visited)).2 ∧
        ∀ w ∈ ws, w ∈ (ws.foldl (search.visit p) (pending, visited)).2 := by
  induction ws with
  | nil => exact fun h _ => ⟨h, Finset.Subset.refl _, fun w hw => absurd hw not_mem_nil⟩
  | cons w ws ih =>
    intro pending visited h hws
    rw [foldl_cons]
    have hvisit := h.visit hm (hws w mem_cons_self)
    obtain ⟨hrest, hsub, hall⟩ := ih hvisit (fun v hv => hws v (mem_cons_of_mem _ hv))
    have hone : visited ⊆ (search.visit p (pending, visited) w).2 ∧ w ∈ (search.visit p (pending, visited) w).2 := by
      by_cases hmem : w ∈ visited
      · rw [visit_of_mem hmem]
        exact ⟨Finset.Subset.refl _, hmem⟩
      · rw [visit_of_not_mem hmem]
        exact ⟨Finset.subset_insert w visited, Finset.mem_insert_self w visited⟩
    refine ⟨hrest, Finset.Subset.trans hone.1 hsub, fun v hv => ?_⟩
    rcases mem_cons.mp hv with rfl | hv
    · exact hsub hone.2
    · exact hall v hv

/-- A turn keeps the invariant. -/
theorem Search.Sound.turn
    (h : Sound search source destination depth Good (p :: pending) visited) (hp : search.node p ≠ destination) :
    Sound search source destination depth Good
      ((search.successors (search.node p)).foldl (search.visit p) (pending, visited)).1
      ((search.successors (search.node p)).foldl (search.visit p) (pending, visited)).2 := by
  obtain ⟨hrest, -, hall⟩ := h.expanding.foldl hm (search.successors (search.node p)) (fun w hw => hw)
  refine { hrest.toQueued with closed := fun u hu => ?_, band := fun q hq q' hq' => ?_ }
  · rcases hrest.closed u hu with rfl | hqueued | hexpanded
    · exact .inr ⟨hp, hall⟩
    · exact .inl hqueued
    · exact .inr hexpanded
  · have hfirst := (hrest.band q (mem_of_mem_head? hq)).1
    have hlast := (hrest.band q' hq').2
    omega

end

/-! ## The fuel -/

/-- What is queued and what is not visited, together. -/
def remaining (nodes : Finset Node) (s : List Payload × Finset Node) : Nat := s.1.length + (nodes \ s.2).card

theorem remaining_visit_le (hw : w ∈ nodes) (s : List Payload × Finset Node) :
    remaining nodes (search.visit p s w) ≤ remaining nodes s := by
  obtain ⟨pending, visited⟩ := s
  by_cases hmem : w ∈ visited
  · rw [visit_of_mem hmem]
  · rw [visit_of_not_mem hmem]
    have hcard : (nodes \ insert w visited).card < (nodes \ visited).card := by
      apply Finset.card_lt_card
      rw [Finset.ssubset_iff_of_subset (Finset.sdiff_subset_sdiff (Finset.Subset.refl _)
        (Finset.subset_insert w visited))]
      refine ⟨w, Finset.mem_sdiff.mpr ⟨hw, hmem⟩, fun h => ?_⟩
      exact (Finset.mem_sdiff.mp h).2 (Finset.mem_insert_self w visited)
    unfold remaining
    dsimp only
    rw [length_append, length_singleton]
    omega

theorem remaining_foldl_le (search : Search Node Payload) (p : Payload) (ws : List Node) (hws : ∀ w ∈ ws, w ∈ nodes) :
    ∀ s : List Payload × Finset Node, remaining nodes (ws.foldl (search.visit p) s) ≤ remaining nodes s := by
  induction ws with
  | nil => exact fun s => le_refl _
  | cons w ws ih =>
    intro s
    rw [foldl_cons]
    exact (ih (fun v hv => hws v (mem_cons_of_mem _ hv)) _).trans
      (remaining_visit_le (hws w mem_cons_self) s)

theorem Search.run_succ (fuel : Nat) : ∀ {pending : List Payload} {visited : Finset Node} {result : Option Payload},
    search.run destination fuel pending visited = some result →
      search.run destination (fuel + 1) pending visited = some result := by
  induction fuel with
  | zero =>
    intro pending visited result h
    cases h
  | succ fuel ih =>
    intro pending visited result h
    unfold Search.run at h ⊢
    cases pending with
    | nil => exact h
    | cons p pending =>
      dsimp only at h ⊢
      by_cases hp : search.node p = destination
      · rw [if_pos hp] at h ⊢
        exact h
      · rw [if_neg hp] at h ⊢
        exact ih h

/-- More fuel gives the same. -/
theorem Search.run_mono {fuel fuel' : Nat} (hle : fuel ≤ fuel') {result : Option Payload}
    (h : search.run destination fuel pending visited = some result) :
    search.run destination fuel' pending visited = some result := by
  induction hle with
  | refl => exact h
  | step _ ih => exact search.run_succ _ ih

/-- **A search finds what is least deep**, or there is no walk to the destination. -/
theorem Search.Sound.run (hm : Measured search source depth Good) (hsource : source ∈ nodes)
    (hnodes : ∀ u ∈ nodes, ∀ w, search.Edge u w → w ∈ nodes) (fuel : Nat) :
    ∀ {pending : List Payload} {visited : Finset Node}, Sound search source destination depth Good pending visited →
      remaining nodes (pending, visited) < fuel →
      (∃ p, search.run destination fuel pending visited = some (some p) ∧ search.node p = destination ∧ Good p ∧
        ∀ n, Walk search.Edge n source destination → depth p ≤ n) ∨
      (search.run destination fuel pending visited = some none ∧ ∀ n, ¬ Walk search.Edge n source destination) := by
  have hreach : ∀ {n : Nat} {u : Node}, Walk search.Edge n source u → u ∈ nodes := by
    intro n u hwalk
    induction hwalk with
    | refl => exact hsource
    | tail _ hstep ih => exact hnodes _ (ih hm hsource) _ hstep
  induction fuel with
  | zero => exact fun _ hfuel => absurd hfuel (not_lt_zero _)
  | succ fuel ih =>
    intro pending visited h hfuel
    unfold Search.run
    cases pending with
    | nil =>
      refine .inr ⟨rfl, fun n hwalk => ?_⟩
      -- nothing is queued, so that all visited nodes were expanded
      have hexpanded : ∀ u ∈ visited, search.Expanded destination visited u := by
        intro u hu
        rcases h.closed u hu with ⟨p, hp, -⟩ | hexpanded
        · exact absurd hp not_mem_nil
        · exact hexpanded
      by_cases hmem : destination ∈ visited
      · exact (hexpanded destination hmem).1 rfl
      · obtain ⟨k, u, v, -, -, hstep, hu, hv⟩ := hwalk.exists_leaves (s := ↑visited) h.source_mem hmem
        exact hv ((hexpanded u hu).2 v hstep)
    | cons p pending =>
      dsimp only
      by_cases hp : search.node p = destination
      · rw [if_pos hp]
        refine .inl ⟨p, rfl, hp, h.good p mem_cons_self, fun n hwalk => ?_⟩
        rw [← hp] at hwalk
        exact h.least p mem_cons_self n hwalk
      · rw [if_neg hp]
        have hmem : search.node p ∈ nodes := hreach (hm.walk p (h.good p mem_cons_self))
        apply ih (h.turn hm hp)
        have hle := remaining_foldl_le search p (search.successors (search.node p))
          (hnodes _ hmem) (pending, visited)
        unfold remaining at hle hfuel ⊢
        dsimp only at hle hfuel ⊢
        rw [length_cons] at hfuel
        omega

end BreadthFirst
