import Builra.Util.ShellWords

namespace Builra.UNIXShellCommandCodec

open Character PosixShell
open List hiding lex

/-!
# `Util.ShellQuotes` — arguments in single quotes

What a shell reads of an argument whose fragments between single quotes are quoted where they have a special character.
A single quote of a character of several scalars ends the quoting, and then the rest of the fragment is read unquoted up
to the quote that was to end it; nothing brings the single quote back.
-/

variable {k : Character} {c : Char} {f string : List Character} {t e z : List Char} {es : List (List Char)}

/-! ## A fragment that is read unquoted by mistake -/

/-- The text begins with a double quote, or with an escaped newline. -/
def IsOdd (z : List Char) : Prop := (∃ u, z = '"' :: u) ∨ ∃ u, z = '\\' :: '\n' :: u

theorem IsOdd.exists_head (h : IsOdd z) : ∃ a u, z = a :: u ∧ a.toNat < 128 ∧ a ≠ '\'' := by
  rcases h with ⟨u, rfl⟩ | ⟨u, rfl⟩
  · exact ⟨'"', u, rfl, by decide, by decide⟩
  · exact ⟨'\\', '\n' :: u, rfl, by decide, by decide⟩

theorem lex_double_odd_ne (ht : Closes t) (h : IsOdd z) : lex .double t ≠ some (z :: es) := by
  rcases h with ⟨u, rfl⟩ | ⟨u, rfl⟩
  · exact ht.lex_double_ne
  · rcases ht.cases with rfl | ⟨v, rfl⟩ | ⟨v, rfl⟩
    · simp [lex]
    · show push ' ' (lex .double v) ≠ _
      exact push_ne (by decide)
    · show push '\\' (push '\'' (lex .double v)) ≠ _
      intro hread
      exact push_ne (by decide) (push_eq_some_cons.mp hread).2

theorem lex_doubleEscaped_ne (hc : c ≠ '\n') : lex .doubleEscaped (c :: t) ≠ some (('\'' :: e) :: es) := by
  rw [lex, if_neg hc]
  split_ifs with hescaped
  · apply push_ne
    rintro rfl
    exact absurd hescaped (by decide)
  · exact push_ne (by decide)

/-- Behind a single quote that ended the quoting too early, a fragment does not bring it back, neither unquoted nor in
double quotes of the fragment. -/
theorem lex_unquoted_ne (ht : Closes t) (f : List Character) (hf : ofScalar '\'' ∉ f) :
    (∀ z, (∃ u, z = unicodeScalars f ++ u) ∨ IsOdd z →
        lex .bare (unicodeScalars f ++ '\'' :: t) ≠ some (('\'' :: z) :: es)) ∧
      ∀ z, IsOdd z → lex .double (unicodeScalars f ++ '\'' :: t) ≠ some (('\'' :: z) :: es) := by
  induction hn : f.length using Nat.strong_induction_on generalizing f with
  | _ n ih =>
    subst hn
    cases f with
    | nil =>
      refine ⟨fun z _ => ht.lex_single_ne, fun z hz => ?_⟩
      show push '\'' (lex .double t) ≠ _
      exact fun hread => lex_double_odd_ne ht hz (push_eq_some_cons.mp hread).2
    | cons k f =>
      have hk : k ≠ ofScalar '\'' := fun hk => hf (hk ▸ mem_cons_self)
      have htail : ofScalar '\'' ∉ f := fun hmem => hf (mem_cons_of_mem k hmem)
      obtain ⟨ihbare, ihdouble⟩ := ih f.length (Nat.lt_succ_self _) f htail rfl
      -- an escaped newline is removed, and the argument goes on behind it
      have hescaped : ∀ f', f = ofScalar '\n' :: f' →
          (∀ z, IsOdd z → lex .bare (unicodeScalars f' ++ '\'' :: t) ≠ some (('\'' :: z) :: es)) ∧
            ∀ z, IsOdd z → lex .double (unicodeScalars f' ++ '\'' :: t) ≠ some (('\'' :: z) :: es) := by
        rintro f' rfl
        obtain ⟨ihbare, ihdouble⟩ := ih f'.length (by simp only [length_cons]; omega) f'
          (fun hmem => htail (mem_cons_of_mem _ hmem)) rfl
        exact ⟨fun z hz => ihbare z (.inr hz), ihdouble⟩
      rcases eq_ofScalar_or k with ⟨c, rfl⟩ | hcluster
      · have hc : c ≠ '\'' := fun hc => hk (congrArg ofScalar hc)
        refine ⟨fun z hz => ?_, fun z hz => ?_⟩
        · show lex .bare (c :: (unicodeScalars f ++ '\'' :: t)) ≠ _
          rw [lex]
          cases hkind : kind c with
          | plain => exact push_ne hc
          | blank =>
            show (lex .between _).map (List.cons []) ≠ _
            simp
          | active => simp
          | singleQuote => exact absurd ((eq_of_kind c).1 hkind) hc
          | doubleQuote =>
            obtain rfl := (eq_of_kind c).2.1 hkind
            apply ihdouble
            rcases hz with ⟨u, rfl⟩ | hodd
            · exact .inl ⟨unicodeScalars f ++ u, rfl⟩
            · exact hodd
          | backslash =>
            obtain rfl := (eq_of_kind c).2.2 hkind
            show lex (.escaped true) (unicodeScalars f ++ '\'' :: t) ≠ _
            have hhead : ∃ a u, z = a :: u ∧ a.toNat < 128 ∧ a ≠ '\'' := by
              rcases hz with ⟨u, rfl⟩ | hodd
              · exact ⟨'\\', unicodeScalars f ++ u, rfl, by decide, by decide⟩
              · exact hodd.exists_head
            cases f with
            | nil =>
              obtain ⟨a, u, rfl, -, ha⟩ := hhead
              show push '\'' (lex .bare t) ≠ _
              exact fun hread => ht.lex_bare_ne ha (push_eq_some_cons.mp hread).2
            | cons l f =>
              rcases eq_ofScalar_or l with ⟨d, rfl⟩ | hcluster
              · show lex (.escaped true) (d :: (unicodeScalars f ++ '\'' :: t)) ≠ _
                by_cases hd : d = '\n'
                · subst hd
                  apply (hescaped f rfl).1
                  rcases hz with ⟨u, rfl⟩ | hodd
                  · exact .inr ⟨unicodeScalars f ++ u, rfl⟩
                  · exact hodd
                · rw [lex_escaped true hd]
                  apply push_ne
                  rintro rfl
                  exact htail mem_cons_self
              · obtain ⟨a, u, rfl, ha, -⟩ := hhead
                rw [unicodeScalars_cons, append_assoc]
                exact lex_escaped_cluster_ne_quote hcluster ha
        · show lex .double (c :: (unicodeScalars f ++ '\'' :: t)) ≠ _
          rw [lex]
          split_ifs with hquote hbackslash hexpands
          · exact ihbare z (.inr hz)
          · cases f with
            | nil => exact lex_doubleEscaped_ne (by decide)
            | cons l f =>
              rcases eq_ofScalar_or l with ⟨d, rfl⟩ | hcluster
              · show lex .doubleEscaped (d :: (unicodeScalars f ++ '\'' :: t)) ≠ _
                by_cases hd : d = '\n'
                · subst hd
                  exact (hescaped f rfl).2 z hz
                · exact lex_doubleEscaped_ne hd
              · obtain ⟨x, y, u, hl, hnewline, -⟩ := exists_scalars hcluster
                rw [unicodeScalars_cons, hl]
                exact lex_doubleEscaped_ne hnewline
          · simp
          · exact push_ne hc
      · refine ⟨fun z _ => ?_, fun z hz => ?_⟩
        · rw [unicodeScalars_cons, append_assoc]
          exact lex_bare_cluster_ne hcluster
        · rw [unicodeScalars_cons, append_assoc]
          obtain ⟨a, u, rfl, ha, -⟩ := hz.exists_head
          exact lex_double_cluster_ne_quote hcluster ha

/-! ## A fragment in quotes -/

theorem lex_single_append {s : List Char} (h : '\'' ∉ s) :
    lex .single (s ++ t) = some ((s ++ e) :: es) ↔ lex .single t = some (e :: es) := by
  induction s with
  | nil => exact Iff.rfl
  | cons c s ih =>
    have hc : c ≠ '\'' := fun hc => h (hc ▸ mem_cons_self)
    rw [cons_append, cons_append, lex_single hc, push_eq_some_cons, and_iff_right rfl,
      ih (fun hmem => h (mem_cons_of_mem c hmem))]

/-- Quoted, a fragment is read as it is unless one of its characters contains a single quote. -/
theorem lex_quoted (ht : Closes t) (hf : ofScalar '\'' ∉ f) :
    lex .single (unicodeScalars f ++ '\'' :: t) = some ((unicodeScalars f ++ z) :: es) ↔
      (∀ k ∈ f, '\'' ∉ k.scalars) ∧ lex .bare t = some (z :: es) := by
  induction f with
  | nil =>
    show lex .bare t = some (z :: es) ↔ _
    simp
  | cons k f ih =>
    have ih := ih (fun hmem => hf (mem_cons_of_mem k hmem))
    rw [unicodeScalars_cons, append_assoc, append_assoc, forall_mem_cons]
    by_cases hquote : '\'' ∈ k.scalars
    · refine iff_of_false ?_ (fun hall => hall.1.1 hquote)
      rcases eq_ofScalar_or k with ⟨c, rfl⟩ | hcluster
      · obtain rfl := mem_singleton.mp hquote
        exact absurd mem_cons_self hf
      rcases scalars_of_only?_eq_none hcluster with
        hline | ⟨-, hwide⟩ | ⟨before, c, after, hscalars, hc, -, -, hbefore, hafter⟩
      · rw [hline] at hquote
        exact absurd hquote (by decide)
      · exact absurd (hwide _ hquote) (by decide)
      · have hnotBefore : '\'' ∉ before := fun hmem => absurd (hbefore _ hmem) (by decide)
        have hnotAfter : '\'' ∉ after := fun hmem => absurd (hafter _ hmem) (by decide)
        obtain rfl : '\'' = c := by
          rw [hscalars, mem_append, mem_cons] at hquote
          exact (hquote.resolve_left hnotBefore).resolve_right hnotAfter
        rw [hscalars, append_assoc, append_assoc, lex_single_append hnotBefore]
        show lex .bare (after ++ (unicodeScalars f ++ '\'' :: t)) ≠
          some (('\'' :: (after ++ (unicodeScalars f ++ z))) :: es)
        cases after with
        | nil =>
          exact (lex_unquoted_ne ht f (fun hmem => hf (mem_cons_of_mem k hmem))).1 _
            (.inl ⟨z, rfl⟩)
        | cons y after =>
          have hy := hafter y mem_cons_self
          rw [cons_append, lex_bare_wide hy]
          exact push_wide_ne hy (by decide)
    · rw [lex_single_append hquote, ih, and_iff_right hquote]

theorem lex_single_fragment_ne_nil (hf : ofScalar '\'' ∉ f) (hne : f ≠ []) :
    lex .single (unicodeScalars f ++ t) ≠ some ([] :: es) := by
  obtain ⟨k, f, rfl⟩ := exists_cons_of_ne_nil hne
  rcases eq_ofScalar_or k with ⟨c, rfl⟩ | hcluster
  · have hc : c ≠ '\'' := fun hc => hf (hc ▸ mem_cons_self)
    show lex .single (c :: (unicodeScalars f ++ t)) ≠ _
    rw [lex_single hc]
    exact push_ne_nil
  · obtain ⟨x, y, u, hk, -, -⟩ := exists_scalars hcluster
    rw [unicodeScalars_cons, hk]
    show lex .single (x :: y :: (u ++ unicodeScalars f ++ t)) ≠ _
    by_cases hx : x = '\''
    · subst hx
      have hy := wide_of_kind hcluster hk (by decide)
      show lex .bare (y :: (u ++ unicodeScalars f ++ t)) ≠ _
      rw [lex_bare_wide hy]
      exact push_ne_nil
    · rw [lex_single hx]
      exact push_ne_nil

/-! ## A fragment without quotes -/

theorem IsBare.tail (h : IsBare (k :: f)) : IsBare f := fun l hl => h l (mem_cons_of_mem k hl)

/-- A character of a bare fragment is not special, or has several scalars. -/
theorem IsBare.head (h : IsBare (k :: f)) : (∃ c, k = ofScalar c ∧ isSpecialScalar c = false) ∨ k.only? = none := by
  rcases eq_ofScalar_or k with ⟨c, rfl⟩ | hcluster
  · exact .inl ⟨c, rfl, h _ mem_cons_self⟩
  · exact .inr hcluster

theorem lex_single_bare_ne (ht : Closes t) (h : IsBare f) :
    lex .single (unicodeScalars f ++ t) ≠ some (('\'' :: e) :: es) := by
  cases f with
  | nil => exact ht.lex_single_ne
  | cons k f =>
    rcases h.head with ⟨c, rfl, hc⟩ | hcluster
    · have hquote : c ≠ '\'' := ne_of_not_special hc (by decide)
      show lex .single (c :: (unicodeScalars f ++ t)) ≠ _
      rw [lex_single hquote]
      exact push_ne hquote
    · rw [unicodeScalars_cons, append_assoc]
      exact lex_single_cluster_ne hcluster

/-- Behind a scalar that began quoting, a bare fragment does not bring it back. -/
theorem lex_quotes_bare_ne (ht : Closes t) (hz : ∀ es, lex (.escaped true) t ≠ some (('\\' :: z) :: es)) (h : IsBare f)
    {m : Mode} (hm : quotes c = some m) :
    lex m (unicodeScalars f ++ t) ≠ some ((c :: (unicodeScalars f ++ z)) :: es) := by
  unfold quotes at hm
  split at hm
  case h_1 hsingle =>
    obtain rfl := (eq_of_kind c).1 hsingle
    cases hm
    exact lex_single_bare_ne ht h
  case h_2 hdouble =>
    obtain rfl := (eq_of_kind c).2.1 hdouble
    cases hm
    cases f with
    | nil => exact ht.lex_double_ne
    | cons k f =>
      rcases h.head with ⟨c, rfl, hc⟩ | hcluster
      · show lex .double (c :: (unicodeScalars f ++ t)) ≠ _
        rw [lex_double_of_not_special hc]
        exact push_ne (ne_of_not_special hc (by decide))
      · rw [unicodeScalars_cons, append_assoc]
        exact lex_double_cluster_ne hcluster
  case h_3 hslash =>
    obtain rfl := (eq_of_kind c).2.2 hslash
    cases hm
    cases f with
    | nil => exact hz es
    | cons k f =>
      rcases h.head with ⟨c, rfl, hc⟩ | hcluster
      · show lex (.escaped true) (c :: (unicodeScalars f ++ t)) ≠ _
        rw [lex_escaped true (ne_of_not_special hc (by decide))]
        exact push_ne (ne_of_not_special hc (by decide))
      · rw [unicodeScalars_cons, append_assoc, append_assoc]
        exact lex_escaped_cluster_ne hcluster
  case h_4 => exact absurd hm (by simp)

theorem isInert_of_not_special (hc : isSpecialScalar c = false) : IsInert (ofScalar c) := by
  intro d hd
  obtain rfl := mem_singleton.mp hd
  exact kind_of_not_special hc

/-- Without quotes, a fragment is read as it is exactly if all its characters are inert. -/
theorem lex_bare_fragment (ht : Closes t) (hz : ∀ es, lex (.escaped true) t ≠ some (('\\' :: z) :: es)) (h : IsBare f) :
    lex .bare (unicodeScalars f ++ t) = some ((unicodeScalars f ++ z) :: es) ↔
      (∀ k ∈ f, IsInert k) ∧ lex .bare t = some (z :: es) := by
  induction f with
  | nil => simp
  | cons k f ih =>
    have ih := ih h.tail
    rw [forall_mem_cons]
    rcases h.head with ⟨c, rfl, hc⟩ | hcluster
    · show lex .bare (c :: (unicodeScalars f ++ t)) = some ((c :: (unicodeScalars f ++ z)) :: es) ↔ _
      rw [lex_bare_plain (kind_of_not_special hc), push_eq_some_cons, and_iff_right rfl, ih,
        and_iff_right (isInert_of_not_special hc)]
    · rw [unicodeScalars_cons, append_assoc, append_assoc, lex_bare_cluster hcluster, ih, and_assoc]
      apply or_iff_left
      rintro ⟨c, m, -, hm, hread⟩
      exact lex_quotes_bare_ne ht hz h.tail hm hread

/-! ## An argument -/

/-- The fragment is read as it is: quoted, no character contains a single quote; unquoted, all characters are inert. -/
def FragmentSafe (f : List Character) : Prop :=
  (¬ IsBare f → ∀ k ∈ f, '\'' ∉ k.scalars) ∧ (IsBare f → ∀ k ∈ f, IsInert k)

/-- A word may begin with the fragment. -/
def BeginsSafely (f : List Character) : Prop := IsBare f → ∀ k ∈ f.head?, ∀ c ∈ k.scalars.head?, opensWord c = false

/-- The argument is read as it is. -/
def QuotesSafely (arg : List Character) : Prop :=
  (∀ f ∈ fragment (ofScalar '\'') arg, f ≠ [ofScalar '\''] → FragmentSafe f) ∧
    ∀ f ∈ (fragment (ofScalar '\'') arg).head?, f ≠ [ofScalar '\''] → BeginsSafely f

theorem only?_of_mem_keyword {f : List Character} (hf : isShellKeyword f = true) {k : Character} (hk : k ∈ f) :
    k.only? ≠ none := by
  have hall : ∀ f ∈ shellKeywords, ∀ k ∈ f, k.only? ≠ none := by decide
  exact hall f (of_decide_eq_true hf) k hk

variable (codec : UNIXShellCommandCodec) (argIndex : Nat)

/-- A fragment other than the single quote is quoted or bare. -/
theorem encodeFragment_cases (hf : ofScalar '\'' ∉ f) :
    (codec.encodeFragment argIndex f = ofScalar '\'' :: f ++ [ofScalar '\''] ∧
        (FragmentSafe f ↔ ∀ k ∈ f, '\'' ∉ k.scalars) ∧ BeginsSafely f) ∨
      (codec.encodeFragment argIndex f = f ∧ IsBare f ∧ (FragmentSafe f ↔ ∀ k ∈ f, IsInert k)) := by
  have hne : f ≠ [ofScalar '\''] := by
    rintro rfl
    exact hf mem_cons_self
  have hbare : f.any isSpecialShellCharacter = false ↔ IsBare f := by simp [IsBare]
  unfold encodeFragment
  rw [if_neg hne]
  cases hspecial : f.any isSpecialShellCharacter with
  | true =>
    have hnot : ¬ IsBare f := fun h => Bool.false_ne_true ((hbare.mpr h).symm.trans hspecial)
    rw [if_pos (by simp)]
    refine .inl ⟨rfl, ?_, fun h => absurd h hnot⟩
    unfold FragmentSafe
    rw [and_iff_left (fun h => absurd h hnot)]
    exact ⟨fun h => h hnot, fun h _ => h⟩
  | false =>
    have hbare := hbare.mp hspecial
    have hsafe : FragmentSafe f ↔ ∀ k ∈ f, IsInert k := by
      unfold FragmentSafe
      rw [and_iff_right (fun h => absurd hbare h)]
      exact ⟨fun h => h hbare, fun h _ => h⟩
    rw [Bool.or_false]
    cases hneeds : codec.needsShellKeywordEncoding argIndex f with
    | false =>
      rw [if_neg (by decide)]
      exact .inr ⟨rfl, hbare, hsafe⟩
    | true =>
      -- the characters of a keyword have one scalar and are not special
      have hkeyword : isShellKeyword f = true := by
        simp only [needsShellKeywordEncoding, Bool.and_eq_true] at hneeds
        exact hneeds.2
      have hall : ∀ k ∈ f, ∃ c, k = ofScalar c ∧ isSpecialScalar c = false := by
        intro k hk
        rcases eq_ofScalar_or k with ⟨c, rfl⟩ | hnone
        · exact ⟨c, rfl, hbare _ hk⟩
        · exact absurd hnone (only?_of_mem_keyword hkeyword hk)
      rw [if_pos rfl]
      refine .inl ⟨rfl, ?_, ?_⟩
      · rw [hsafe]
        refine iff_of_true ?_ ?_
        · intro k hk
          obtain ⟨c, rfl, hc⟩ := hall k hk
          exact isInert_of_not_special hc
        · intro k hk hmem
          obtain ⟨c, rfl, hc⟩ := hall k hk
          exact ne_of_not_special hc (by decide) (mem_singleton.mp hmem).symm
      · intro _ k hk c hc
        obtain ⟨d, rfl, hd⟩ := hall k (mem_of_mem_head? hk)
        cases hc
        exact (plain_of_not_special hd).2

/-- What is written for an argument, or for the part of it before a single quote. -/
def quoted (arg : List Character) : List Char :=
  unicodeScalars ((fragment (ofScalar '\'') arg).flatMap (codec.encodeFragment argIndex))

theorem quoted_nil : codec.quoted argIndex [] = [] := rfl

theorem quoted_of_notMem (hf : ofScalar '\'' ∉ f) (hne : f ≠ []) :
    codec.quoted argIndex f = unicodeScalars (codec.encodeFragment argIndex f) := by
  rw [quoted, fragment_of_notMem hf, if_neg hne, flatMap_singleton]

theorem quoted_append (hf : ofScalar '\'' ∉ f) (rest : List Character) :
    codec.quoted argIndex (f ++ ofScalar '\'' :: rest) =
      codec.quoted argIndex f ++ '\\' :: '\'' :: codec.quoted argIndex rest := by
  have hquote : codec.encodeFragment argIndex [ofScalar '\''] = [ofScalar '\\', ofScalar '\''] := if_pos rfl
  unfold quoted
  rw [fragment_append hf, fragment_of_notMem hf, flatMap_append, flatMap_cons, hquote, unicodeScalars_append,
    unicodeScalars_append]
  rfl

variable {codec argIndex}

/-- The part of an argument before a single quote, or up to the end, is read as it is exactly if it is safe. -/
theorem lex_bare_quoted_fragment (ht : Closes t) (hz : ∀ es, lex (.escaped true) t ≠ some (('\\' :: z) :: es))
    (hf : ofScalar '\'' ∉ f) :
    lex .bare (codec.quoted argIndex f ++ t) = some ((unicodeScalars f ++ z) :: es) ↔
      FragmentSafe f ∧ lex .bare t = some (z :: es) := by
  by_cases hne : f = []
  · subst hne
    have hsafe : FragmentSafe [] := ⟨by simp, by simp⟩
    rw [quoted_nil, and_iff_right hsafe]
    rfl
  rw [quoted_of_notMem codec argIndex hf hne]
  rcases encodeFragment_cases codec argIndex hf with ⟨hwritten, hsafe, -⟩ | ⟨hwritten, hbare, hsafe⟩
  · rw [hwritten, hsafe, ← lex_quoted ht hf]
    simp only [unicodeScalars_append, cons_append, unicodeScalars_cons, scalars_ofScalar, unicodeScalars_nil,
      nil_append, append_assoc, lex_bare_singleQuote]
  · rw [hwritten, hsafe]
    exact lex_bare_fragment ht hz hbare

theorem lex_single_quoted_fragment_ne (ht : Closes t) (hf : ofScalar '\'' ∉ f) :
    lex .single (codec.quoted argIndex f ++ t) ≠ some (('\'' :: (unicodeScalars f ++ z)) :: es) := by
  by_cases hne : f = []
  · subst hne
    exact ht.lex_single_ne
  rw [quoted_of_notMem codec argIndex hf hne]
  rcases encodeFragment_cases codec argIndex hf with ⟨hwritten, -, -⟩ | ⟨hwritten, hbare, -⟩
  · rw [hwritten]
    simp only [unicodeScalars_append, cons_append, unicodeScalars_cons, scalars_ofScalar, unicodeScalars_nil,
      nil_append, append_assoc, lex_single_close]
    exact (lex_unquoted_ne ht f hf).1 _ (.inl ⟨z, rfl⟩)
  · rw [hwritten]
    exact lex_single_bare_ne ht hbare

/-- An argument without single quotes, or its parts before and behind the first one. -/
theorem argument_cases (arg : List Character) :
    ofScalar '\'' ∉ arg ∨ ∃ f rest, arg = f ++ ofScalar '\'' :: rest ∧ ofScalar '\'' ∉ f := by
  by_cases hmem : ofScalar '\'' ∈ arg
  · obtain ⟨f, rest, harg, hf⟩ := eq_append_cons_of_mem hmem
    exact .inr ⟨f, rest, harg, hf⟩
  · exact .inl hmem

theorem closes_quote (t : List Char) : Closes ('\\' :: '\'' :: t) := .inr ⟨t, rfl⟩

theorem lex_single_quoted_ne (ht : Ends t) (arg : List Character) :
    lex .single (codec.quoted argIndex arg ++ t) ≠ some (('\'' :: unicodeScalars arg) :: es) := by
  rcases argument_cases arg with harg | ⟨f, rest, rfl, hf⟩
  · have hne : lex .single (codec.quoted argIndex arg ++ t) ≠ some (('\'' :: (unicodeScalars arg ++ [])) :: es) :=
      lex_single_quoted_fragment_ne (.inl ht) harg
    rwa [append_nil] at hne
  · rw [quoted_append codec argIndex hf, append_assoc, unicodeScalars_append]
    exact lex_single_quoted_fragment_ne (closes_quote _) hf

/-- All fragments other than the single quotes are safe. -/
def FragmentsSafe (arg : List Character) : Prop :=
  ∀ f ∈ fragment (ofScalar '\'') arg, f ≠ [ofScalar '\''] → FragmentSafe f

theorem fragmentSafe_nil : FragmentSafe [] := ⟨by simp, by simp⟩

theorem fragmentsSafe_of_notMem (hf : ofScalar '\'' ∉ f) : FragmentsSafe f ↔ FragmentSafe f := by
  unfold FragmentsSafe
  rw [fragment_of_notMem hf]
  split
  case isTrue hnil =>
    rw [hnil]
    exact iff_of_true (by simp) fragmentSafe_nil
  case isFalse =>
    have hne : f ≠ [ofScalar '\''] := by
      rintro rfl
      exact hf mem_cons_self
    simp [hne]

theorem fragmentsSafe_append (hf : ofScalar '\'' ∉ f) (rest : List Character) :
    FragmentsSafe (f ++ ofScalar '\'' :: rest) ↔ FragmentSafe f ∧ FragmentsSafe rest := by
  rw [← fragmentsSafe_of_notMem hf]
  unfold FragmentsSafe
  rw [fragment_append hf, fragment_of_notMem hf, forall_mem_append, forall_mem_cons]
  simp

/-- Inside a word, an argument is read as it is exactly if its fragments are safe. -/
theorem lex_bare_quoted (ht : Ends t) (arg : List Character) :
    lex .bare (codec.quoted argIndex arg ++ t) = some (unicodeScalars arg :: es) ↔
      FragmentsSafe arg ∧ lex .between t = some es := by
  induction hn : arg.length using Nat.strong_induction_on generalizing arg with
  | _ n ih =>
    subst hn
    rcases argument_cases arg with harg | ⟨f, rest, rfl, hf⟩
    · have hread : lex .bare (codec.quoted argIndex arg ++ t) = some ((unicodeScalars arg ++ []) :: es) ↔
          FragmentSafe arg ∧ lex .bare t = some ([] :: es) :=
        lex_bare_quoted_fragment (.inl ht) (fun es => lex_escaped_ne_of_ends ht) harg
      rwa [append_nil, ht.lex_bare, and_iff_right rfl, ← fragmentsSafe_of_notMem harg] at hread
    · have hrest := ih rest.length (by simp only [length_append, length_cons]; omega) rest rfl
      rw [quoted_append codec argIndex hf, append_assoc, unicodeScalars_append, fragmentsSafe_append hf, and_assoc,
        ← hrest, cons_append, cons_append, unicodeScalars_cons,
        lex_bare_quoted_fragment (closes_quote _) _ hf]
      · show _ ∧ push '\'' (lex .bare (codec.quoted argIndex rest ++ t)) =
          some (('\'' :: unicodeScalars rest) :: es) ↔ _
        rw [push_eq_some_cons, and_iff_right rfl]
      · -- an escaped backslash leaves the quote unescaped
        intro es
        show push '\\' (lex .single (codec.quoted argIndex rest ++ t)) ≠
          some (('\\' :: '\'' :: unicodeScalars rest) :: es)
        exact fun hread => lex_single_quoted_ne ht rest (push_eq_some_cons.mp hread).2

/-- At the start of a word, the first part of an argument is read as inside one, unless it opens the word. -/
theorem lex_between_quoted_fragment (hf : ofScalar '\'' ∉ f) (hne : f ≠ []) :
    (lex .between (codec.quoted argIndex f ++ t) = some ((unicodeScalars f ++ z) :: es) ↔
        BeginsSafely f ∧ lex .bare (codec.quoted argIndex f ++ t) = some ((unicodeScalars f ++ z) :: es)) ∧
      lex .between (codec.quoted argIndex f ++ t) ≠ some ([] :: es) := by
  rw [quoted_of_notMem codec argIndex hf hne]
  rcases encodeFragment_cases codec argIndex hf with ⟨hwritten, -, hbegins⟩ | ⟨hwritten, hbare, -⟩
  · rw [hwritten, and_iff_right hbegins]
    simp only [unicodeScalars_append, cons_append, unicodeScalars_cons, scalars_ofScalar, unicodeScalars_nil,
      nil_append, append_assoc]
    exact ⟨Iff.rfl, lex_single_fragment_ne_nil hf hne⟩
  · rw [hwritten]
    obtain ⟨k, f, rfl⟩ := exists_cons_of_ne_nil hne
    have hbegins : BeginsSafely (k :: f) ↔ ∀ c ∈ k.scalars.head?, opensWord c = false := by
      unfold BeginsSafely
      simp [hbare]
    rw [hbegins]
    rcases hbare.head with ⟨c, rfl, hc⟩ | hcluster
    · have hopens : ∀ d ∈ (ofScalar c).scalars.head?, opensWord d = false := by
        intro d hd
        cases hd
        exact (plain_of_not_special hc).2
      rw [and_iff_right hopens, unicodeScalars_cons, scalars_ofScalar, singleton_append, cons_append,
        lex_between_of_not_special hc, lex_bare_plain (kind_of_not_special hc)]
      exact ⟨Iff.rfl, push_ne_nil⟩
    · rw [unicodeScalars_cons, append_assoc, append_assoc]
      exact ⟨lex_between_cluster hcluster, lex_between_cluster_ne_nil hcluster⟩

/-- An argument that is not empty is read as it is exactly if its fragments are safe. -/
theorem writes_quoted {arg : List Character} (hne : arg ≠ []) :
    Writes (codec.quoted argIndex arg) (unicodeScalars arg) (QuotesSafely arg) := by
  rcases argument_cases arg with harg | ⟨f, rest, rfl, hf⟩
  · have hsafe : QuotesSafely arg ↔ BeginsSafely arg ∧ FragmentsSafe arg := by
      have hquote : arg ≠ [ofScalar '\''] := by
        rintro rfl
        exact harg mem_cons_self
      unfold QuotesSafely
      rw [and_comm, fragment_of_notMem harg, if_neg hne]
      simp [hquote, FragmentsSafe, fragment_of_notMem harg, hne]
    refine ⟨?_, fun _ => (lex_between_quoted_fragment (z := []) harg hne).2⟩
    intro t es ht
    have hbetween : lex .between (codec.quoted argIndex arg ++ t) = some ((unicodeScalars arg ++ []) :: es) ↔
        BeginsSafely arg ∧ lex .bare (codec.quoted argIndex arg ++ t) = some ((unicodeScalars arg ++ []) :: es) :=
      (lex_between_quoted_fragment harg hne).1
    rw [append_nil] at hbetween
    rw [hbetween, lex_bare_quoted ht, hsafe, and_assoc]
  · by_cases hnil : f = []
    · subst hnil
      have hsafe : QuotesSafely (ofScalar '\'' :: rest) ↔ FragmentsSafe (ofScalar '\'' :: rest) := by
        unfold QuotesSafely
        have hhead : (fragment (ofScalar '\'') (ofScalar '\'' :: rest)).head? = some [ofScalar '\''] := by
          have happend := fragment_append hf rest
          rw [nil_append] at happend
          rw [happend]
          rfl
        rw [hhead, and_iff_left]
        · rfl
        · rintro f' hf' hne
          exact absurd (Option.some.inj hf').symm hne
      have hquoted := quoted_append codec argIndex hf rest
      rw [nil_append, quoted_nil, nil_append] at hquoted
      refine ⟨?_, ?_⟩
      · intro t es ht
        rw [nil_append, hsafe, ← lex_bare_quoted ht (ofScalar '\'' :: rest)]
        show lex .between (codec.quoted argIndex (ofScalar '\'' :: rest) ++ t) = _ ↔
          lex .bare (codec.quoted argIndex (ofScalar '\'' :: rest) ++ t) = _
        rw [hquoted]
        rfl
      · intro t es _
        rw [nil_append, hquoted]
        show push '\'' (lex .bare (codec.quoted argIndex rest ++ t)) ≠ _
        exact push_ne_nil
    · have hsafe : QuotesSafely (f ++ ofScalar '\'' :: rest) ↔
          BeginsSafely f ∧ FragmentsSafe (f ++ ofScalar '\'' :: rest) := by
        have hquote : f ≠ [ofScalar '\''] := by
          rintro rfl
          exact hf mem_cons_self
        have hhead : (fragment (ofScalar '\'') (f ++ ofScalar '\'' :: rest)).head? = some f := by
          rw [fragment_append hf, if_neg hnil]
          rfl
        unfold QuotesSafely
        rw [hhead, and_comm]
        simp [hquote, FragmentsSafe]
      refine ⟨?_, ?_⟩
      · intro t es ht
        have hbare : lex .bare (codec.quoted argIndex (f ++ ofScalar '\'' :: rest) ++ t) =
              some (unicodeScalars (f ++ ofScalar '\'' :: rest) :: es) ↔
            FragmentsSafe (f ++ ofScalar '\'' :: rest) ∧ lex .between t = some es := lex_bare_quoted ht _
        rw [hsafe, and_assoc, ← hbare, quoted_append codec argIndex hf, append_assoc, unicodeScalars_append]
        exact (lex_between_quoted_fragment hf hnil).1
      · intro t es _
        rw [quoted_append codec argIndex hf, append_assoc]
        exact (lex_between_quoted_fragment (z := []) hf hnil).2

end Builra.UNIXShellCommandCodec
