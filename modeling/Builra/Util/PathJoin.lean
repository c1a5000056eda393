import Builra.Util.PathNormalize

namespace Builra.Path

open List

/-!
# `Util.PathJoin` — joining with normalization

`join` normalizes what it appends by a loop of its own, which starts with the receiver and puts a separator in front of
every name. The appended path goes some levels up and then down some names (`climb`), whatever the receiver is: where it
climbs past all components of the receiver before the last names, they come to stand behind the root and another
separator (`place`). A receiver that ends in a backslash loses it.
-/

/-! ## Where a relative path leads -/

/-- A component that names something. -/
structure IsName (c : List UInt8) : Prop where
  isComponent : IsComponent c
  ne_dot : c ≠ dot
  ne_dotDot : c ≠ dotDot

def moveOf (c : List UInt8) : Option (Climb.Move (List UInt8)) :=
  if c = [] ∨ c = dot then none else if c = dotDot then some .up else some (.into c)

/-- The levels that the path goes up, and the names that it goes down. -/
def climb (str : List UInt8) : Climb.Reach (List UInt8) := Climb.reach ((enumerateSplits str).filterMap moveOf)

section Climb

variable {c : List UInt8} {position components : List (List UInt8)}

theorem moveOf_eq_into {name : List UInt8} (h : moveOf c = some (.into name)) :
    c = name ∧ name ≠ [] ∧ name ≠ dot ∧ name ≠ dotDot := by
  unfold moveOf at h
  split_ifs at h with hskip hup
  · exact absurd h (by simp)
  · have hc : c = name := by simpa using h
    subst hc
    exact ⟨rfl, fun hnil => hskip (.inl hnil), fun hdot => hskip (.inr hdot), hup⟩

theorem moveOf_eq_up (h : moveOf c = some .up) : c = dotDot := by
  unfold moveOf at h
  split_ifs at h with hskip hup
  · exact hup
  · exact absurd h (by simp)

theorem isName_of_mem_names (h : ∀ d ∈ components, pathSeparatorUTF8 ∉ d) :
    ∀ d ∈ (Climb.reach (components.filterMap moveOf)).names, IsName d := by
  induction components using List.reverseRecOn with
  | nil => exact fun d hd => absurd hd not_mem_nil
  | append_singleton components c ih =>
    have hinit := ih (fun d hd => h d (mem_append_left _ hd))
    rw [filterMap_append]
    cases hmove : moveOf c with
    | none =>
      rw [filterMap_cons_none hmove, filterMap_nil, append_nil]
      exact hinit
    | some m =>
      rw [filterMap_cons_some hmove, filterMap_nil, Climb.reach_append]
      generalize Climb.reach (components.filterMap moveOf) = r at hinit ⊢
      obtain ⟨ups, names⟩ := r
      cases m with
      | into name =>
        obtain ⟨rfl, hne, hdot, hup⟩ := moveOf_eq_into hmove
        intro d hd
        rcases mem_append.mp hd with hd | hd
        · exact hinit d hd
        · exact mem_singleton.mp hd ▸ ⟨⟨hne, h c (by simp)⟩, hdot, hup⟩
      | up =>
        cases names with
        | nil => exact fun d hd => absurd hd not_mem_nil
        | cons name names => exact fun d hd => hinit d (dropLast_subset _ hd)

theorem Resolved.isName (h : Resolved true position) : ∀ d ∈ position, IsName d := by
  intro d hd
  obtain ⟨hcomp, hdot⟩ := h.isComponent d hd
  refine ⟨hcomp, hdot, ?_⟩
  rintro rfl
  obtain ⟨front, back, rfl⟩ := append_of_mem hd
  have hfront := h.dotDot_front front ⟨back, by simp⟩
  exact Bool.false_ne_true hfront.1.symm

/-- Behind the root, the rule walks. -/
theorem resolveComponent_true (h : ∀ d ∈ position, IsName d) (c : List UInt8) :
    resolveComponent true position c =
      match moveOf c with
      | none => position
      | some m => Climb.walk position m := by
  unfold resolveComponent moveOf
  by_cases hskip : c = [] ∨ c = dot
  · rw [if_pos hskip, if_pos hskip]
  · rw [if_neg hskip, if_neg hskip]
    by_cases hup : c = dotDot
    · rw [if_pos hup, if_pos hup]
      rcases eq_nil_or_concat position with rfl | ⟨position, last, rfl⟩
      · rfl
      · rw [concat_eq_append] at h ⊢
        rw [List.getLast?_concat]
        exact if_neg (h last (by simp)).ne_dotDot
    · rw [if_neg hup, if_neg hup]
      rfl

theorem foldl_resolveComponent_true (h : Resolved true position) (hsep : ∀ d ∈ components, pathSeparatorUTF8 ∉ d) :
    components.foldl (resolveComponent true) position =
      (Climb.reach (components.filterMap moveOf)).start position := by
  rw [← Climb.foldl_walk]
  induction components generalizing position with
  | nil => rfl
  | cons c components ih =>
    have hnext := h.resolveComponent (hsep c mem_cons_self)
    have hrest := ih hnext (fun d hd => hsep d (mem_cons_of_mem _ hd))
    rw [foldl_cons, hrest, resolveComponent_true h.isName]
    cases hmove : moveOf c with
    | none => rw [filterMap_cons_none hmove]
    | some m => rw [filterMap_cons_some hmove, foldl_cons]

end Climb

/-! ## The loop of `join` -/

section Loop

variable {c : List UInt8} {position components : List (List UInt8)} {r : Climb.Reach (List UInt8)}

/-- The components of the result: where the moves have left the receiver and gone down again, an empty one stands in
front. -/
def placed (position : List (List UInt8)) (r : Climb.Reach (List UInt8)) : List (List UInt8) :=
  if position.length ≤ r.ups ∧ r.names ≠ [] then [] :: r.names else r.start position

def place (position : List (List UInt8)) (r : Climb.Reach (List UInt8)) : List UInt8 :=
  render true (placed position r)

theorem placed_of_ups_lt (h : r.ups < position.length) : placed position r = r.start position :=
  if_neg (fun hle => absurd hle.1 (by omega))

theorem placed_of_names_nil (h : r.names = []) : placed position r = r.start position :=
  if_neg (fun hne => hne.2 h)

theorem start_of_le (h : position.length ≤ r.ups) : r.start position = r.names := by
  unfold Climb.Reach.start
  rw [Nat.sub_eq_zero_of_le h, take_zero, nil_append]

theorem place_none (position : List (List UInt8)) : place position .none = render true position := by
  unfold place
  rw [placed_of_names_nil rfl, Climb.Reach.start_none]

/-- The empty component in front of a name adds a separator. -/
theorem render_nil_cons (hne : components ≠ []) :
    render true ([] :: components) = pathSeparatorUTF8 :: render true components := by
  unfold render
  rw [intercalate_cons_of_ne_nil hne]
  simp

theorem mem_placed (hposition : ∀ d ∈ position, IsName d) (hr : ∀ d ∈ r.names, IsName d) :
    ∀ d ∈ placed position r, d = [] ∨ IsName d := by
  intro d hd
  unfold placed at hd
  by_cases hleft : position.length ≤ r.ups ∧ r.names ≠ []
  · rw [if_pos hleft] at hd
    exact (mem_cons.mp hd).imp id (hr d)
  · rw [if_neg hleft] at hd
    rcases mem_append.mp hd with hd | hd
    · exact .inr (hposition d (mem_of_mem_take hd))
    · exact .inr (hr d hd)

theorem joinComponent_dotDot {result : List UInt8} (hne : result ≠ []) (hup : basename result ≠ dotDot)
    (hdot : basename result ≠ dot) : joinComponent result dotDot = dirname result := by
  unfold joinComponent
  rw [if_neg (by decide), if_pos ⟨rfl, not_or_intro hne (not_or_intro hup hdot)⟩]

theorem joinComponent_name {result : List UInt8} (hne : result ≠ []) (hc : IsName c) :
    joinComponent result c = result ++ pathSeparatorUTF8 :: c := by
  unfold joinComponent
  rw [if_neg hc.ne_dot, if_neg (fun h => hc.ne_dotDot h.1), if_neg hne]

/-- Behind names, and at the root, `..` goes up. -/
theorem joinComponent_render_up (h : ∀ d ∈ components, d = [] ∨ IsName d) :
    joinComponent (render true components) dotDot = render true components.dropLast := by
  rcases eq_nil_or_concat components with rfl | ⟨components, c, rfl⟩
  · decide
  · rw [concat_eq_append] at h ⊢
    have hsep : pathSeparatorUTF8 ∉ c ∧ c ≠ dotDot ∧ c ≠ dot := by
      rcases h c (by simp) with rfl | hc
      · decide
      · exact ⟨hc.isComponent.notMem, hc.ne_dotDot, hc.ne_dot⟩
    obtain ⟨hsep, hup, hdot⟩ := hsep
    have hbase : basename (render true (components ++ [c])) = c := basename_render components hsep
    have hdir := joinComponent_dotDot (render_true_ne_nil (components ++ [c])) (by rw [hbase]; exact hup)
      (by rw [hbase]; exact hdot)
    rw [hdir, dirname_render_true components hsep, dropLast_concat]

theorem place_up (position : List (List UInt8)) (r : Climb.Reach (List UInt8)) :
    render true (placed position r).dropLast = place position (r.move .up) := by
  unfold place
  obtain ⟨ups, names⟩ := r
  rcases eq_nil_or_concat names with rfl | ⟨names, name, rfl⟩
  · have hmove : (Climb.Reach.mk ups ([] : List (List UInt8))).move .up = ⟨ups + 1, []⟩ := rfl
    rw [placed_of_names_nil rfl, hmove, placed_of_names_nil rfl, ← hmove, Climb.Reach.start_move]
    rfl
  · rw [concat_eq_append]
    rw [Climb.Reach.move_up_append]
    by_cases hle : position.length ≤ ups
    · have hleft : placed position ⟨ups, names ++ [name]⟩ = [] :: (names ++ [name]) := if_pos ⟨hle, by simp⟩
      rw [hleft, ← cons_append, dropLast_concat]
      by_cases hnames : names = []
      · subst hnames
        rw [placed_of_names_nil rfl, start_of_le hle]
        rfl
      · exact congrArg (render true) (if_pos ⟨hle, hnames⟩).symm
    · rw [placed_of_ups_lt (Nat.lt_of_not_le hle), placed_of_ups_lt (Nat.lt_of_not_le hle)]
      unfold Climb.Reach.start
      rw [← append_assoc, dropLast_concat]

theorem place_into (position : List (List UInt8)) (r : Climb.Reach (List UInt8)) (c : List UInt8) :
    place position r ++ pathSeparatorUTF8 :: c = place position (r.move (.into c)) := by
  unfold place
  obtain ⟨ups, names⟩ := r
  show _ = render true (placed position ⟨ups, names ++ [c]⟩)
  by_cases hle : position.length ≤ ups
  · have hleft : placed position ⟨ups, names ++ [c]⟩ = [] :: (names ++ [c]) := if_pos ⟨hle, by simp⟩
    rw [hleft]
    by_cases hnames : names = []
    · subst hnames
      rw [placed_of_names_nil rfl, start_of_le hle, nil_append, render_nil_cons (cons_ne_nil c [])]
      simp [render_nil, render_singleton]
    · have hbefore : placed position ⟨ups, names⟩ = [] :: names := if_pos ⟨hle, hnames⟩
      rw [hbefore, ← cons_append, render_append_singleton (cons_ne_nil _ _)]
  · rw [placed_of_ups_lt (Nat.lt_of_not_le hle), placed_of_ups_lt (Nat.lt_of_not_le hle)]
    have hstart : Climb.Reach.start ⟨ups, names⟩ position ≠ [] := by
      unfold Climb.Reach.start
      refine append_ne_nil_of_left_ne_nil ?_ _
      rw [Ne, take_eq_nil_iff, not_or]
      constructor
      · show position.length - ups ≠ 0
        omega
      · rintro rfl
        exact hle (Nat.zero_le ups)
    rw [← render_append_singleton hstart]
    unfold Climb.Reach.start
    rw [append_assoc]

/-- One component more. -/
theorem joinComponent_place (hposition : ∀ d ∈ position, IsName d) (hr : ∀ d ∈ r.names, IsName d)
    (hc : IsComponent c) :
    joinComponent (place position r) c =
      match moveOf c with
      | none => place position r
      | some m => place position (r.move m) := by
  unfold moveOf
  by_cases hdot : c = dot
  · subst hdot
    exact if_pos rfl
  · rw [if_neg (not_or_intro hc.ne_nil hdot)]
    by_cases hup : c = dotDot
    · subst hup
      rw [if_pos rfl]
      exact (joinComponent_render_up (mem_placed hposition hr)).trans (place_up position r)
    · rw [if_neg hup]
      exact (joinComponent_name (render_true_ne_nil _) ⟨hc, hdot, hup⟩).trans (place_into position r c)

theorem foldl_joinComponent_place (hposition : ∀ d ∈ position, IsName d) (h : ∀ d ∈ components, IsComponent d) :
    components.foldl joinComponent (render true position) =
      place position (Climb.reach (components.filterMap moveOf)) := by
  induction components using List.reverseRecOn with
  | nil => exact (place_none position).symm
  | append_singleton components c ih =>
    have hinit : ∀ d ∈ components, IsComponent d := fun d hd => h d (mem_append_left _ hd)
    rw [foldl_append, ih hinit, foldl_cons, foldl_nil, filterMap_append,
      joinComponent_place hposition (isName_of_mem_names (fun d hd => (hinit d hd).notMem)) (h c (by simp))]
    cases hmove : moveOf c with
    | none => rw [filterMap_cons_none hmove, filterMap_nil, append_nil]
    | some m => rw [filterMap_cons_some hmove, filterMap_nil, Climb.reach_append]

/-- The result is as it should be unless an empty component stands in front. -/
theorem place_eq_iff (position : List (List UInt8)) (r : Climb.Reach (List UInt8)) :
    place position r = render true (r.start position) ↔ r.ups < position.length ∨ r.names = [] := by
  unfold place
  constructor
  · intro heq
    by_contra hnot
    obtain ⟨hle, hne⟩ := not_or.mp hnot
    have hleft : placed position r = [] :: r.names := if_pos ⟨Nat.le_of_not_lt hle, hne⟩
    rw [hleft, start_of_le (Nat.le_of_not_lt hle), render_nil_cons hne] at heq
    exact absurd (congrArg List.length heq) (by simp)
  · rintro (hlt | hnil)
    · rw [placed_of_ups_lt hlt]
    · rw [placed_of_names_nil hnil]

end Loop

/-! ## Receivers that end in a backslash -/

section Backslash

variable {result : List UInt8} {components names : List (List UInt8)}

/-- The names, appended one by one. -/
def descend (result : List UInt8) (names : List (List UInt8)) : List UInt8 :=
  result ++ names.flatMap (fun c => pathSeparatorUTF8 :: c)

theorem descend_append (result : List UInt8) (names : List (List UInt8)) (c : List UInt8) :
    descend result (names ++ [c]) = descend result names ++ pathSeparatorUTF8 :: c := by
  simp [descend]

theorem descend_ne_nil (hne : result ≠ []) (names : List (List UInt8)) : descend result names ≠ [] :=
  append_ne_nil_of_left_ne_nil hne _

theorem render_append_eq_descend (hne : components ≠ []) (names : List (List UInt8)) :
    render true (components ++ names) = descend (render true components) names := by
  induction names using List.reverseRecOn with
  | nil => simp [descend]
  | append_singleton names c ih =>
    rw [← append_assoc, render_append_singleton (append_ne_nil_of_left_ne_nil hne names), ih, descend_append]

theorem joinComponent_of_moveOf_none {c : List UInt8} (hc : IsComponent c) (h : moveOf c = none) (result : List UInt8) :
    joinComponent result c = result := by
  have hdot : c = dot := by
    by_contra hdot
    unfold moveOf at h
    rw [if_neg (not_or_intro hc.ne_nil hdot)] at h
    split_ifs at h
  exact if_pos hdot

/-- Moves that never leave the receiver append to it. -/
theorem foldl_joinComponent_descend (hne : result ≠ []) (h : ∀ d ∈ components, IsComponent d)
    (hups : (Climb.reach (components.filterMap moveOf)).ups = 0) :
    components.foldl joinComponent result = descend result (Climb.reach (components.filterMap moveOf)).names := by
  induction components using List.reverseRecOn with
  | nil => simp [descend, Climb.Reach.none]
  | append_singleton components c ih =>
    have hinit : ∀ d ∈ components, IsComponent d := fun d hd => h d (mem_append_left _ hd)
    have hc : IsComponent c := h c (by simp)
    have hnames := isName_of_mem_names (fun d hd => (hinit d hd).notMem)
    rw [filterMap_append] at hups ⊢
    rw [foldl_append, foldl_cons, foldl_nil]
    cases hmove : moveOf c with
    | none =>
      rw [filterMap_cons_none hmove, filterMap_nil, append_nil] at hups ⊢
      rw [ih hinit hups, joinComponent_of_moveOf_none hc hmove]
    | some m =>
      rw [filterMap_cons_some hmove, filterMap_nil, Climb.reach_append] at hups ⊢
      generalize Climb.reach (components.filterMap moveOf) = r at hups hnames ih ⊢
      obtain ⟨ups, names⟩ := r
      cases m with
      | into name =>
        obtain ⟨rfl, -, hdot, hup⟩ := moveOf_eq_into hmove
        rw [ih hinit hups, joinComponent_name (descend_ne_nil hne names) ⟨hc, hdot, hup⟩]
        exact (descend_append result names c).symm
      | up =>
        obtain rfl := moveOf_eq_up hmove
        rcases eq_nil_or_concat names with rfl | ⟨names, name, rfl⟩
        · exact absurd hups (Nat.succ_ne_zero ups)
        · rw [concat_eq_append] at hups hnames ih ⊢
          obtain ⟨hname, hdot, hup⟩ := hnames name (by simp)
          have hbase := basename_append (descend result names) hname.notMem
          rw [Climb.Reach.move_up_append] at hups ⊢
          rw [ih hinit hups, descend_append]
          have hdir : joinComponent (descend result names ++ pathSeparatorUTF8 :: name) dotDot =
              dirname (descend result names ++ pathSeparatorUTF8 :: name) := by
            apply joinComponent_dotDot (by simp)
            · rw [hbase]
              exact hup
            · rw [hbase]
              exact hdot
          rw [hdir, dirname_append (descend_ne_nil hne names) hname.notMem]

/-- Behind `..`, no component is removed that was there before. -/
theorem foldl_joinComponent_stuck (result : List UInt8) (h : ∀ d ∈ components, IsComponent d) :
    ∃ more, components.foldl joinComponent (result ++ pathSeparatorUTF8 :: dotDot)
        = result ++ pathSeparatorUTF8 :: (dotDot ++ more) ∧ (more = [] ∨ ∃ rest, more = pathSeparatorUTF8 :: rest) := by
  induction components using List.reverseRecOn with
  | nil => exact ⟨[], by simp, .inl rfl⟩
  | append_singleton components c ih =>
    obtain ⟨more, hfold, hmore⟩ := ih (fun d hd => h d (mem_append_left _ hd))
    have hne : result ++ pathSeparatorUTF8 :: (dotDot ++ more) ≠ [] := by simp
    have happend : ∃ more', result ++ pathSeparatorUTF8 :: (dotDot ++ more) ++ pathSeparatorUTF8 :: c
        = result ++ pathSeparatorUTF8 :: (dotDot ++ more') ∧ (more' = [] ∨ ∃ rest, more' = pathSeparatorUTF8 :: rest) := by
      refine ⟨more ++ pathSeparatorUTF8 :: c, by simp, ?_⟩
      rcases hmore with rfl | ⟨rest, rfl⟩
      · exact .inr ⟨c, rfl⟩
      · exact .inr ⟨rest ++ pathSeparatorUTF8 :: c, rfl⟩
    rw [foldl_append, foldl_cons, foldl_nil, hfold]
    unfold joinComponent
    by_cases hdot : c = dot
    · rw [if_pos hdot]
      exact ⟨more, rfl, hmore⟩
    · rw [if_neg hdot]
      by_cases hup : c = dotDot ∧ ¬ (result ++ pathSeparatorUTF8 :: (dotDot ++ more) = [] ∨
          basename (result ++ pathSeparatorUTF8 :: (dotDot ++ more)) = dotDot ∨
          basename (result ++ pathSeparatorUTF8 :: (dotDot ++ more)) = dot)
      · rw [if_pos hup]
        rcases hmore with rfl | ⟨rest, rfl⟩
        · have hbase : basename (result ++ pathSeparatorUTF8 :: (dotDot ++ [])) = dotDot :=
            basename_append result isComponent_dotDot.notMem
          exact absurd (.inr (.inl hbase)) hup.2
        · rcases separator_cases rest with hsep | ⟨x, d, rfl, hsep⟩
          · refine ⟨[], ?_, .inl rfl⟩
            have hdir := dirname_append (x := result ++ pathSeparatorUTF8 :: dotDot) (by simp) hsep
            simpa using hdir
          · refine ⟨pathSeparatorUTF8 :: x, ?_, .inr ⟨x, rfl⟩⟩
            have hdir := dirname_append (x := result ++ pathSeparatorUTF8 :: (dotDot ++ pathSeparatorUTF8 :: x)) (by simp)
              hsep
            simpa using hdir
      · rw [if_neg hup, if_neg hne]
        exact happend

/-- So that it has a component that names nothing. -/
theorem stuck_ne_render (result : List UInt8) {more : List UInt8}
    (hmore : more = [] ∨ ∃ rest, more = pathSeparatorUTF8 :: rest) (h : ∀ d ∈ components, IsName d) :
    result ++ pathSeparatorUTF8 :: (dotDot ++ more) ≠ render true components := by
  intro heq
  have hmem : dotDot ∈ (result ++ pathSeparatorUTF8 :: (dotDot ++ more)).splitOn pathSeparatorUTF8 := by
    rw [splitOn_append_cons_self]
    refine mem_append_right _ ?_
    rcases hmore with rfl | ⟨rest, rfl⟩
    · decide
    · rw [splitOn_append_cons_self_of_not_mem isComponent_dotDot.notMem]
      exact mem_cons_self
  rw [heq] at hmem
  have hsplit : (render true components).splitOn pathSeparatorUTF8 =
      [] :: ([pathSeparatorUTF8].intercalate components).splitOn pathSeparatorUTF8 := by
    show (pathSeparatorUTF8 :: [pathSeparatorUTF8].intercalate components).splitOn pathSeparatorUTF8 = _
    rw [splitOn_cons_eq_if_modifyHead, if_pos (beq_self_eq_true _)]
  rw [hsplit] at hmem
  have hmem' := (mem_cons.mp hmem).resolve_left (by decide)
  by_cases hne : components = []
  · subst hne
    exact absurd hmem' (by decide)
  · rw [splitOn_intercalate (fun d hd => (h d hd).isComponent) hne] at hmem'
    exact (h dotDot hmem').ne_dotDot rfl

end Backslash

/-! ## The appended path -/

section Join

variable {r : List UInt8} {position : List (List UInt8)}

/-- Joining without normalization puts the components of the paths in a row. -/
theorem normalize_join_render (hposition : Resolved true position) (hrel : isAbsolute r = false) (hne : r ≠ []) :
    normalize (join (render true position) r) = render true ((climb r).start position) := by
  have hcomp : ∀ d ∈ position, IsComponent d := fun d hd => (hposition.isComponent d hd).1
  have hsep : ∀ d ∈ r.splitOn pathSeparatorUTF8, pathSeparatorUTF8 ∉ d := fun d hd => notMem_of_mem_splitOn hd
  have hguard : ¬ (render true position = [] ∨ isAbsolute r = true) := by
    rw [hrel]
    exact not_or_intro (render_true_ne_nil position) Bool.false_ne_true
  have hclimb : (r.splitOn pathSeparatorUTF8).foldl (resolveComponent true) position = (climb r).start position := by
    unfold climb
    rw [enumerateSplits_eq, ← foldl_filter_ne_nil (resolveComponent_nil true),
      foldl_resolveComponent_true hposition (fun d hd => hsep d (mem_filter.mp hd).1)]
  have hjoin : isAbsolute (join (render true position) r) = true ∧
      resolve true ((join (render true position) r).splitOn pathSeparatorUTF8) = (climb r).start position := by
    unfold join
    rw [if_neg hguard, if_neg hne]
    by_cases hnil : position = []
    · subst hnil
      rw [if_pos (by decide), ← hclimb]
      refine ⟨rfl, ?_⟩
      show resolve true ((pathSeparatorUTF8 :: r).splitOn pathSeparatorUTF8) = _
      rw [splitOn_cons_eq_if_modifyHead, if_pos (beq_self_eq_true _)]
      rfl
    · rw [if_neg (getLast?_render hcomp hnil)]
      refine ⟨by simp [isAbsolute, render], ?_⟩
      have hfirst : resolve true ((render true position).splitOn pathSeparatorUTF8) = position := by
        rw [resolve_splitOn_render hcomp, hposition.resolve]
      rw [splitOn_append_cons_self, ← hclimb]
      unfold resolve at hfirst ⊢
      rw [foldl_append, hfirst]
  obtain ⟨habs, hresolve⟩ := hjoin
  have hdot : join (render true position) r ≠ dot := by
    intro h
    rw [h] at habs
    exact absurd habs (by decide)
  rw [normalize_eq_normalForm hdot]
  unfold normalForm
  rw [habs, hresolve]

/-- What is appended as it is needs no change. -/
theorem isNormalized_join_render (hposition : Resolved true position) (hrel : isAbsolute r = false) (hne : r ≠ [])
    (hr : isNormalized r = true) : isNormalized (join (render true position) r) = true := by
  rw [isNormalized_iff] at hr ⊢
  unfold allComponents at hr
  rw [hrel] at hr
  have hguard : ¬ (render true position = [] ∨ isAbsolute r = true) := by
    rw [hrel]
    exact not_or_intro (render_true_ne_nil position) Bool.false_ne_true
  unfold join
  rw [if_neg hguard, if_neg hne]
  by_cases hnil : position = []
  · subst hnil
    exact hr
  · rw [if_neg (getLast?_render (fun d hd => (hposition.isComponent d hd).1) hnil)]
    have habs : isAbsolute (render true position ++ pathSeparatorUTF8 :: r) = true := by simp [isAbsolute, render]
    have hall : allComponents (render true position ++ pathSeparatorUTF8 :: r) =
        position ++ r.splitOn pathSeparatorUTF8 := by
      unfold allComponents
      rw [habs]
      show ([pathSeparatorUTF8].intercalate position ++ pathSeparatorUTF8 :: r).splitOn pathSeparatorUTF8 = _
      rw [splitOn_append_cons_self, splitOn_intercalate (fun d hd => (hposition.isComponent d hd).1) hnil]
    rw [hall]
    intro c hc
    rcases mem_append.mp hc with hc | hc
    · have hname := hposition.isName c hc
      exact ⟨hname.isComponent.ne_nil, hname.ne_dot, hname.ne_dotDot⟩
    · exact hr c hc

theorem withoutTrailingSlash_render (h : ∀ d ∈ position, IsComponent d)
    (hlast : (render true position).getLast? ≠ some 92) :
    withoutTrailingSlash (render true position) = render true position := by
  refine if_neg ?_
  rintro ⟨hroot, hsep | hback⟩
  · refine getLast?_render h ?_ hsep
    rintro rfl
    exact hroot rfl
  · exact hlast hback

variable (front : List (List UInt8))

variable (x : List UInt8)

/-- What is left of a receiver that ends in a backslash. -/
def trimmed : List UInt8 :=
  (if front = [] then [] else render true front) ++ pathSeparatorUTF8 :: x

theorem render_backslash :
    render true (front ++ [x ++ [92]]) = trimmed front x ++ [92] := by
  unfold trimmed
  by_cases hnil : front = []
  · subst hnil
    rw [nil_append, render_singleton]
    simp
  · rw [if_neg hnil, render_append_singleton hnil]
    simp

theorem withoutTrailingSlash_backslash :
    withoutTrailingSlash (render true (front ++ [x ++ [92]])) = trimmed front x := by
  have hroot : ¬ isRoot (trimmed front x ++ [92]) = true := by
    intro h
    have hlen := congrArg List.length (of_decide_eq_true h)
    simp only [trimmed, length_append, length_cons, length_nil] at hlen
    omega
  rw [render_backslash]
  unfold withoutTrailingSlash
  rw [if_pos ⟨hroot, .inr List.getLast?_concat⟩, dropLast_concat]

theorem dirname_trimmed {x : List UInt8} (hx : pathSeparatorUTF8 ∉ x) :
    dirname (trimmed front x) = render true front := by
  unfold trimmed
  by_cases hnil : front = []
  · subst hnil
    exact dirname_root_append hx
  · rw [if_neg hnil]
    exact dirname_append (render_true_ne_nil front) hx

theorem trimmed_ne_nil : trimmed front x ≠ [] := by
  simp [trimmed]

/-- The components of the appended path, up to the one that leaves the receiver, and behind it. -/
theorem exists_first_dotDot {components : List (List UInt8)}
    (h : (Climb.reach (components.filterMap moveOf)).ups ≠ 0) :
    ∃ before after, components = before ++ dotDot :: after ∧ Climb.reach (before.filterMap moveOf) = .none ∧
      (Climb.reach (components.filterMap moveOf)).ups = (Climb.reach (after.filterMap moveOf)).ups + 1 ∧
      (Climb.reach (components.filterMap moveOf)).names = (Climb.reach (after.filterMap moveOf)).names := by
  obtain ⟨before, after, hmoves, hbefore, hups, hnames⟩ := Climb.exists_first_up h
  obtain ⟨l₁, l₂, rfl, rfl, hl₂⟩ := filterMap_eq_append_iff.mp hmoves
  obtain ⟨l, c, after', rfl, hl, hc, rfl⟩ := filterMap_eq_cons_iff.mp hl₂
  obtain rfl := moveOf_eq_up hc
  refine ⟨l₁ ++ l, after', by simp, ?_, hups, hnames⟩
  rw [filterMap_append, filterMap_eq_nil_iff.mpr hl, append_nil]
  exact hbefore

/-- A receiver that has lost its backslash. -/
theorem foldl_trimmed_eq_iff {front : List (List UInt8)} {x : List UInt8}
    (hposition : ∀ d ∈ front ++ [x ++ [92]], IsName d) {components : List (List UInt8)}
    (h : ∀ d ∈ components, IsComponent d) :
    components.foldl joinComponent (trimmed front x)
        = render true ((Climb.reach (components.filterMap moveOf)).start (front ++ [x ++ [92]])) ↔
      ((Climb.reach (components.filterMap moveOf)).ups < (front ++ [x ++ [92]]).length ∨
        (Climb.reach (components.filterMap moveOf)).names = []) ∧
        (Climb.reach (components.filterMap moveOf)).ups ≠ 0 ∧ x ≠ dot ∧ x ≠ dotDot := by
  have hfront : ∀ d ∈ front, IsName d := fun d hd => hposition d (mem_append_left _ hd)
  have hx : pathSeparatorUTF8 ∉ x := by
    intro hsep
    exact (hposition (x ++ [92]) (by simp)).isComponent.notMem (mem_append_left _ hsep)
  have hnames := isName_of_mem_names (fun d hd => (h d hd).notMem)
  by_cases hups : (Climb.reach (components.filterMap moveOf)).ups = 0
  · -- the component with the backslash is kept
    refine iff_of_false ?_ (fun hr => hr.2.1 hups)
    rw [foldl_joinComponent_descend (trimmed_ne_nil front x) h hups]
    generalize Climb.reach (components.filterMap moveOf) = r at hups
    have hstart : r.start (front ++ [x ++ [92]]) = (front ++ [x ++ [92]]) ++ r.names := by
      unfold Climb.Reach.start
      rw [hups, Nat.sub_zero, take_length]
    rw [hstart, render_append_eq_descend (by simp), render_backslash]
    intro heq
    have hlen := congrArg List.length heq
    simp [descend] at hlen
  · obtain ⟨before, after, rfl, hbefore, hupsEq, hnamesEq⟩ := exists_first_dotDot hups
    have hb : ∀ d ∈ before, IsComponent d := fun d hd => h d (mem_append_left _ hd)
    have ha : ∀ d ∈ after, IsComponent d := fun d hd => h d (mem_append_right _ (mem_cons_of_mem _ hd))
    have hreturn : before.foldl joinComponent (trimmed front x) = trimmed front x := by
      rw [foldl_joinComponent_descend (trimmed_ne_nil front x) hb (by rw [hbefore]; rfl), hbefore]
      exact append_nil _
    have hbase : basename (trimmed front x) = x := basename_append _ hx
    rw [foldl_append, foldl_cons, hreturn]
    by_cases hdots : x = dot ∨ x = dotDot
    · -- the component looks like one that names nothing
      have hkept : joinComponent (trimmed front x) dotDot = trimmed front x ++ pathSeparatorUTF8 :: dotDot := by
        unfold joinComponent
        rw [if_neg (by decide), if_neg ?_, if_neg (trimmed_ne_nil front x)]
        rw [hbase]
        rintro ⟨-, hnot⟩
        exact hnot (.inr hdots.symm)
      refine iff_of_false ?_ ?_
      · obtain ⟨more, hfold, hmore⟩ := foldl_joinComponent_stuck (trimmed front x) ha
        rw [hkept, hfold]
        refine stuck_ne_render _ hmore ?_
        intro d hd
        rcases mem_append.mp hd with hd | hd
        · exact hposition d (mem_of_mem_take hd)
        · exact hnames d hd
      · rintro ⟨-, -, hdot, hup⟩
        exact hdots.elim hdot hup
    · obtain ⟨hdot, hup⟩ := not_or.mp hdots
      have hdir := joinComponent_dotDot (trimmed_ne_nil front x) (by rw [hbase]; exact hup) (by rw [hbase]; exact hdot)
      have hstart : (Climb.reach ((before ++ dotDot :: after).filterMap moveOf)).start (front ++ [x ++ [92]]) =
          (Climb.reach (after.filterMap moveOf)).start front := by
        unfold Climb.Reach.start
        rw [hupsEq, hnamesEq, length_append, length_singleton, Nat.add_sub_add_right,
          take_append_of_le_length (Nat.sub_le _ _)]
      rw [hdir, dirname_trimmed front hx, foldl_joinComponent_place hfront ha, hstart, place_eq_iff, hupsEq, hnamesEq,
        length_append, length_singleton, Nat.add_lt_add_iff_right]
      exact (and_iff_left ⟨Nat.succ_ne_zero _, hdot, hup⟩).symm

/-- Where normalization on the way gives the normalized path: nothing needs to be changed, or the names do not come to
stand at the root behind components that have been left, and the receiver does not lose a backslash, or loses it with
the component that it is in. -/
def JoinsCleanly (p r : List UInt8) : Prop :=
  r = [] ∨ isNormalized r = true ∨
    ((climb r).ups < (resolved p).length ∨ (climb r).names = []) ∧
      (p.getLast? ≠ some 92 ∨ (climb r).ups ≠ 0 ∧ basename p ≠ dot ++ [92] ∧ basename p ≠ dotDot ++ [92])

theorem joinNormalizing_eq_iff {p : List UInt8} (habs : isAbsolute p = true) (hnorm : normalize p = p)
    (hrel : isAbsolute r = false) :
    joinNormalizing p r = normalize (join p r) ↔ JoinsCleanly p r := by
  have hdot : p ≠ dot := by
    rintro rfl
    exact absurd habs (by decide)
  have hposition : Resolved true (resolved p) := habs ▸ resolved_resolved p
  have hp : p = render true (resolved p) := by
    rw [← habs, ← normalForm_eq, ← normalize_eq_normalForm hdot, hnorm]
  have hguard : ¬ (p = [] ∨ isAbsolute r = true) := by
    rw [hrel]
    refine not_or_intro ?_ Bool.false_ne_true
    rintro rfl
    exact absurd habs (by decide)
  unfold joinNormalizing JoinsCleanly
  rw [if_neg hguard]
  by_cases hnil : r = []
  · subst hnil
    refine iff_of_true ?_ (.inl rfl)
    unfold join
    rw [if_pos rfl, if_neg hguard, if_pos rfl, hnorm]
  · rw [if_neg hnil, or_iff_right hnil]
    by_cases hr : isNormalized r = true
    · refine iff_of_true ?_ (.inl hr)
      have hjoin := isNormalized_join_render hposition hrel hnil hr
      rw [← hp] at hjoin
      rw [if_pos hr]
      unfold normalize
      rw [if_pos hjoin, ite_self]
    · have hexpected := normalize_join_render hposition hrel hnil
      rw [← hp] at hexpected
      rw [if_neg hr, or_iff_right hr, hexpected]
      by_cases hback : p.getLast? = some 92
      · -- the last component has the backslash
        obtain ⟨front, last, hlast⟩ : ∃ front last, resolved p = front ++ [last] := by
          rcases eq_nil_or_concat (resolved p) with hempty | ⟨front, last, h⟩
          · rw [hp, hempty] at hback
            exact absurd hback (by decide)
          · exact ⟨front, last, by rw [h, concat_eq_append]⟩
        rw [hlast] at hposition hp
        have hname := hposition.isName last (by simp)
        rw [hp, getLast?_render_append front hname.isComponent.ne_nil] at hback
        obtain ⟨x, rfl⟩ := List.getLast?_eq_some_iff.mp hback
        have htrim : withoutTrailingSlash p = trimmed front x := hp ▸ withoutTrailingSlash_backslash front x
        have hbase : basename p = x ++ [92] := hp ▸ basename_render front hname.isComponent.notMem
        have hlastp : p.getLast? = some 92 := by
          rw [hp, getLast?_render_append front hname.isComponent.ne_nil, hback]
        rw [htrim, hlast, hbase, hlastp, climb,
          foldl_trimmed_eq_iff hposition.isName (fun d hd => isComponent_of_mem_enumerateSplits hd)]
        simp only [ne_eq, not_true_eq_false, false_or, append_cancel_right_eq]
      · have htrim : withoutTrailingSlash p = render true (resolved p) := by
          conv_lhs => rw [hp]
          refine withoutTrailingSlash_render (fun d hd => (hposition.isComponent d hd).1) ?_
          rwa [← hp]
        rw [htrim, foldl_joinComponent_place hposition.isName (fun d hd => isComponent_of_mem_enumerateSplits hd)]
        exact (place_eq_iff _ _).trans (and_iff_left (.inl hback)).symm

end Join

end Builra.Path
