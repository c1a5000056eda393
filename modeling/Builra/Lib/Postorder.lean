import Mathlib.Data.List.Nodup
import Mathlib.Logic.Relation

namespace Builra

open List

/-!
# `Lib.Postorder` — a depth-first traversal with two guards

A traversal that adds every node after its successors, skips the nodes on the path it is on, and skips the
nodes it has already added. On an acyclic graph that is a topological order. On any other graph a skipped node
on the path is the only reason for a successor to come later, and such an edge lies on a cycle.
-/

namespace Postorder

variable {α : Type} {succ : α → List α}

/-- `u` reaches `v` along successors. -/
abbrev Reaches (succ : α → List α) : α → α → Prop := Relation.ReflTransGen (fun u v => v ∈ succ u)

/-- `v` stands before `u` in the list. -/
def Before (order : List α) (v u : α) : Prop := [v, u].Sublist order

/-- `Visits path added pending added'`: visiting the nodes of `pending` from the path leads from the nodes
    added before to the ones in `added'`. -/
inductive Visits (succ : α → List α) : List α → List α → List α → List α → Prop where
  | nil {path added} : Visits succ path added [] added
  | skip {path added pending added' v} : v ∈ path ∨ v ∈ added →
      Visits succ path added pending added' → Visits succ path added (v :: pending) added'
  | add {path added added₁ pending added' v} : v ∉ path → v ∉ added →
      Visits succ (path ++ [v]) added (succ v) added₁ →
      Visits succ path (added₁ ++ [v]) pending added' → Visits succ path added (v :: pending) added'

variable {path added pending pending' added' added'' : List α}

theorem Before.mono {order order' : List α} {v u : α} (h : Before order v u) (hs : order.Sublist order') :
    Before order' v u := List.Sublist.trans h hs

theorem before_last {order : List α} {v u : α} (h : v ∈ order) : Before (order ++ [u]) v u := by
  have hv : [v].Sublist order := singleton_sublist.mpr h
  exact hv.append (List.Sublist.refl [u])

namespace Visits

section

variable (h : Visits succ path added pending added')
include h

theorem append (h' : Visits succ path added' pending' added'') :
    Visits succ path added (pending ++ pending') added'' := by
  induction h with
  | nil => exact h'
  | skip hv _ ih => exact .skip hv (ih h')
  | add hp ha hinner _ _ ih => exact .add hp ha hinner (ih h')

theorem sublist : added.Sublist added' := by
  induction h with
  | nil => exact List.Sublist.refl _
  | skip _ _ ih => exact ih
  | add _ _ _ _ ihinner ih => exact (ihinner.trans (sublist_append_left _ _)).trans ih

/-- What is added is not on the path. -/
theorem not_mem_path {x : α} (hx : x ∈ added') (hn : x ∉ added) :
    x ∉ path := by
  induction h with
  | nil => exact absurd hx hn
  | skip _ _ ih => exact ih hx hn
  | @add path added added₁ pending added' v hp _ _ _ ihinner ih =>
    by_cases hmem : x ∈ added₁ ++ [v]
    · rcases mem_append.mp hmem with h₁ | h₁
      · exact fun hpath => ihinner h₁ hn (mem_append_left _ hpath)
      · rw [mem_singleton.mp h₁]
        exact hp
    · exact ih hx hmem

/-- What is added is reached from what was to be visited. -/
theorem reached {x : α} (hx : x ∈ added') (hn : x ∉ added) :
    ∃ p ∈ pending, Reaches succ p x := by
  induction h with
  | nil => exact absurd hx hn
  | skip _ _ ih =>
    obtain ⟨p, hp, hr⟩ := ih hx hn
    exact ⟨p, mem_cons_of_mem _ hp, hr⟩
  | @add path added added₁ pending added' v _ _ _ _ ihinner ih =>
    by_cases hmem : x ∈ added₁ ++ [v]
    · refine ⟨v, mem_cons_self, ?_⟩
      rcases mem_append.mp hmem with h₁ | h₁
      · obtain ⟨p, hp, hr⟩ := ihinner h₁ hn
        exact .head hp hr
      · rw [mem_singleton.mp h₁]
    · obtain ⟨p, hp, hr⟩ := ih hx hmem
      exact ⟨p, mem_cons_of_mem _ hp, hr⟩

/-- What was to be visited is on the path or has been added. -/
theorem covered {p : α} (hp : p ∈ pending) :
    p ∈ path ∨ p ∈ added' := by
  induction h with
  | nil => exact absurd hp (by simp)
  | @skip path added pending added' v hv hrest ih =>
    rcases mem_cons.mp hp with rfl | hp
    · exact hv.imp id (fun ha => hrest.sublist.subset ha)
    · exact ih hp
  | @add path added added₁ pending added' v _ _ _ hrest _ ih =>
    rcases mem_cons.mp hp with rfl | hp
    · exact .inr (hrest.sublist.subset (mem_append_right _ (mem_singleton_self p)))
    · exact ih hp

/-- **The edges of what is added**: the successor is on the path, or it has been added too, before the node
    or on a cycle with it. -/
theorem edges {u v : α} (hu : u ∈ added') (hn : u ∉ added)
    (hv : v ∈ succ u) : v ∈ path ∨ (v ∈ added' ∧ (Before added' v u ∨ Reaches succ v u)) := by
  induction h with
  | nil => exact absurd hu hn
  | skip _ _ ih => exact ih hu hn
  | @add path added added₁ pending added' r _ _ hinner hrest ihinner ih =>
    by_cases hmem : u ∈ added₁ ++ [r]
    · have hsub := hrest.sublist
      have hr : r ∈ added' := hsub.subset (mem_append_right _ (mem_singleton_self r))
      have hsub₁ : added₁.Sublist added' := (sublist_append_left added₁ [r]).trans hsub
      rcases mem_append.mp hmem with hu₁ | hu₁
      · rcases ihinner hu₁ hn with hpath | ⟨hv₁, hor⟩
        · rcases mem_append.mp hpath with hpath | hvr
          · exact .inl hpath
          · -- the edge leads back to `r`, from which `u` was reached
            obtain rfl := mem_singleton.mp hvr
            obtain ⟨p, hp, hreach⟩ := hinner.reached hu₁ hn
            exact .inr ⟨hr, .inr (.head hp hreach)⟩
        · exact .inr ⟨hsub₁.subset hv₁, hor.imp (fun hb => hb.mono hsub₁) id⟩
      · obtain rfl := mem_singleton.mp hu₁
        rcases hinner.covered hv with hpath | hv₁
        · rcases mem_append.mp hpath with hpath | hvu
          · exact .inl hpath
          · rw [mem_singleton.mp hvu]
            exact .inr ⟨hr, .inr .refl⟩
        · exact .inr ⟨hsub₁.subset hv₁, .inl ((before_last hv₁).mono hsub)⟩
    · exact ih hu hmem

end

/-! ## The whole traversal -/

variable {roots order : List α}

/-- Exactly the nodes reached from the roots are added. -/
theorem mem_iff (h : Visits succ [] [] roots order) {v : α} :
    v ∈ order ↔ ∃ r ∈ roots, Reaches succ r v := by
  constructor
  · exact fun hv => h.reached hv not_mem_nil
  · rintro ⟨r, hr, hreach⟩
    induction hreach with
    | refl => exact (h.covered hr).resolve_left not_mem_nil
    | tail _ hedge ih =>
      rcases h.edges ih not_mem_nil hedge with hpath | ⟨hv, -⟩
      · exact absurd hpath not_mem_nil
      · exact hv

/-- An edge whose successor does not come first lies on a cycle. -/
theorem before_or_cycle (h : Visits succ [] [] roots order) {u v : α} (hu : u ∈ order) (hv : v ∈ succ u) :
    Before order v u ∨ Reaches succ v u :=
  ((h.edges hu not_mem_nil hv).resolve_left not_mem_nil).2

end Visits

end Postorder

end Builra
