import Builra.Lib.PosixShell
import Builra.Util.UNIXShellCommandCodec

namespace Builra.UNIXShellCommandCodec

open Character PosixShell
open List hiding lex

/-!
# `Util.ShellWords` — what a shell reads of one character

A character of several scalars is never special for the codec and is written as it is. Each lemma says what a shell
reads of it in one of the lexer's modes: marks outside ASCII are read as they are, so one scalar that means something to
the shell shifts what is read against what was to be written.
-/

variable {k : Character} {c : Char} {t e : List Char} {es : List (List Char)}

/-! ## Characters of one scalar -/

section

variable (hc : isSpecialScalar c = false)
include hc

theorem ne_of_not_special {a : Char} (ha : isSpecialScalar a = true) : c ≠ a := by
  rintro rfl
  exact Bool.false_ne_true (hc.symm.trans ha)

theorem plain_of_not_special : kind c = .plain ∧ opensWord c = false :=
  plain_of_property (p := fun c => !isSpecialScalar c) (by rw [hc]; rfl) (by decide)

theorem kind_of_not_special : kind c = .plain := (plain_of_not_special hc).1

theorem lex_between_of_not_special : lex .between (c :: t) = push c (lex .bare t) := by
  obtain ⟨hkind, hopens⟩ := plain_of_not_special hc
  rw [lex_between_eq (by rw [hkind]; decide) hopens, lex_bare_plain hkind]
  exact fun h => absurd h (ne_of_not_special hc (by decide))

theorem lex_double_of_not_special : lex .double (c :: t) = push c (lex .double t) := by
  rw [lex, if_neg (ne_of_not_special hc (by decide)), if_neg (ne_of_not_special hc (by decide)), if_neg]
  exact not_or_intro (ne_of_not_special hc (by decide)) (ne_of_not_special hc (by decide))

end

/-! ## Characters of several scalars -/

/-- Behind a first scalar in ASCII comes one outside ASCII, but for a line end. -/
theorem exists_scalars (h : k.only? = none) :
    ∃ x y u, k.scalars = x :: y :: u ∧ x ≠ '\n' ∧ (x ≠ '\r' → x.toNat < 128 → 128 ≤ y.toNat) := by
  rcases scalars_of_only?_eq_none h with
    hline | ⟨hlength, hwide⟩ | ⟨before, c, after, hscalars, hc, hcontrol, hne, hbefore, hafter⟩
  · exact ⟨'\r', '\n', [], hline, by decide, fun hcr => absurd rfl hcr⟩
  · match hscalars : k.scalars with
    | [] => exact absurd (hscalars ▸ hlength) (by decide)
    | [x] => exact absurd (hscalars ▸ hlength) (by simp)
    | x :: y :: u =>
      have hx : 128 ≤ x.toNat := hwide x (by rw [hscalars]; exact mem_cons_self)
      exact ⟨x, y, u, rfl, ne_of_wide hx (by decide), fun _ hlt => absurd hx (Nat.not_le_of_lt hlt)⟩
  · cases before with
    | nil =>
      obtain ⟨d, after, rfl⟩ := exists_cons_of_ne_nil (hne.resolve_left (fun h => h rfl))
      refine ⟨c, d, after, hscalars, ?_, fun _ _ => hafter d mem_cons_self⟩
      rintro rfl
      exact absurd hcontrol (by decide)
    | cons d before =>
      have hd := hbefore d mem_cons_self
      refine ⟨d, (before ++ c :: after).head (by simp), (before ++ c :: after).tail, ?_, ne_of_wide hd (by decide),
        fun _ hlt => absurd hd (Nat.not_le_of_lt hlt)⟩
      rw [hscalars, cons_append, cons_head_tail]

theorem lex_double_wide (hc : 128 ≤ c.toNat) : lex .double (c :: t) = push c (lex .double t) := by
  rw [lex, if_neg (ne_of_wide hc (by decide)), if_neg (ne_of_wide hc (by decide)), if_neg]
  exact not_or_intro (ne_of_wide hc (by decide)) (ne_of_wide hc (by decide))

theorem lex_doubleEscaped_wide (hc : 128 ≤ c.toNat) :
    lex .doubleEscaped (c :: t) = push '\\' (push c (lex .double t)) := by
  rw [lex, if_neg (ne_of_wide hc (by decide)), if_neg]
  intro hmem
  have hascii : ∀ a ∈ ['$', '`', '"', '\\'], a.toNat < 128 := all_iff_forall_prop.mp (by decide)
  exact absurd hc (Nat.not_le_of_lt (hascii c hmem))

theorem wide_of_kind (h : k.only? = none) {x y : Char} {u : List Char} (hk : k.scalars = x :: y :: u)
    (hkind : kind x ≠ .plain) : 128 ≤ y.toNat := by
  obtain ⟨x', y', u', hscalars, -, hwide⟩ := exists_scalars h
  obtain ⟨rfl, htail⟩ := List.cons.inj (hk.symm.trans hscalars)
  cases htail
  apply hwide
  · rintro rfl
    exact absurd (by decide) hkind
  · exact Nat.lt_of_not_le fun hx => hkind (kind_of_wide hx)

/-! Where a quote was written for the shell and another character is to be read, a character of several scalars does not
bring it back. -/

theorem push_wide_ne {y a : Char} {r : Option (List (List Char))} (hy : 128 ≤ y.toNat) (ha : a.toNat < 128) :
    push y r ≠ some ((a :: e) :: es) := push_ne (ne_of_wide hy ha)

section

variable (h : k.only? = none)
include h

theorem lex_single_cluster_ne : lex .single (k.scalars ++ t) ≠ some (('\'' :: e) :: es) := by
  obtain ⟨x, y, u, hk, -, hwide⟩ := exists_scalars h
  rw [hk]
  by_cases hx : x = '\''
  · subst hx
    have hy := hwide (by decide) (by decide)
    show lex .bare (y :: (u ++ t)) ≠ _
    rw [lex_bare_wide hy]
    exact push_wide_ne hy (by decide)
  · show lex .single (x :: (y :: u ++ t)) ≠ _
    rw [lex_single hx]
    exact push_ne hx

/-- In double quotes, a character of several scalars is not read as a double quote, and what follows another one in
ASCII is outside ASCII. -/
theorem lex_double_cluster {a : Char} (ha : a = '"' ∨ a = '\'')
    (hread : lex .double (k.scalars ++ t) = some ((a :: e) :: es)) : a = '\'' ∧ ∀ d ∈ e.head?, 128 ≤ d.toNat := by
  obtain ⟨x, y, u, hk, -, hwide⟩ := exists_scalars h
  have hascii : a.toNat < 128 ∧ a ≠ '\\' ∧ a ≠ '\r' := by
    rcases ha with rfl | rfl
    · decide
    · decide
  rw [hk] at hread
  change lex .double (x :: y :: (u ++ t)) = _ at hread
  rw [lex] at hread
  split_ifs at hread with hquote hbackslash hexpands
  · subst hquote
    have hy := hwide (by decide) (by decide)
    rw [lex_bare_wide hy] at hread
    exact absurd hread (push_wide_ne hy hascii.1)
  · subst hbackslash
    rw [lex_doubleEscaped_wide (hwide (by decide) (by decide))] at hread
    exact absurd hread (push_ne hascii.2.1.symm)
  · obtain ⟨rfl, hrest⟩ := push_eq_some_cons.mp hread
    have hy := hwide hascii.2.2 hascii.1
    refine ⟨ha.resolve_left hquote, fun d hd => ?_⟩
    obtain ⟨e, rfl⟩ := head?_eq_some_iff.mp hd
    rw [lex_double_wide hy] at hrest
    obtain ⟨rfl, -⟩ := push_eq_some_cons.mp hrest
    exact hy

theorem lex_double_cluster_ne : lex .double (k.scalars ++ t) ≠ some (('"' :: e) :: es) :=
  fun hread => absurd (lex_double_cluster h (.inl rfl) hread).1 (by decide)

theorem lex_double_cluster_ne_quote {a : Char} (ha : a.toNat < 128) :
    lex .double (k.scalars ++ t) ≠ some (('\'' :: a :: e) :: es) :=
  fun hread => absurd ((lex_double_cluster h (.inr rfl) hread).2 a rfl) (Nat.not_le_of_lt ha)

/-- Behind a backslash, what follows a quote or a backslash in a character of several scalars is outside ASCII. -/
theorem lex_escaped_cluster_wide {a d : Char} (ha : a = '\\' ∨ a = '\'')
    (hread : lex (.escaped true) (k.scalars ++ t) = some ((a :: d :: e) :: es)) :
    k.scalars.head? = some a ∧ 128 ≤ d.toNat := by
  obtain ⟨x, y, u, hk, hnewline, hwide⟩ := exists_scalars h
  rw [hk] at hread ⊢
  change lex (.escaped true) (x :: (y :: u ++ t)) = _ at hread
  rw [lex_escaped true hnewline] at hread
  obtain ⟨rfl, hrest⟩ := push_eq_some_cons.mp hread
  have hy : 128 ≤ y.toNat := by
    rcases ha with rfl | rfl
    · exact hwide (by decide) (by decide)
    · exact hwide (by decide) (by decide)
  rw [cons_append, lex_bare_wide hy] at hrest
  obtain ⟨rfl, -⟩ := push_eq_some_cons.mp hrest
  exact ⟨rfl, hy⟩

theorem lex_escaped_cluster_ne :
    lex (.escaped true) (k.scalars ++ t) ≠ some (('\\' :: (k.scalars ++ e)) :: es) := by
  intro hread
  obtain ⟨x, y, u, hk, -, -⟩ := exists_scalars h
  have hscalars : k.scalars ++ e = x :: (y :: u ++ e) := by rw [hk]; rfl
  rw [hscalars] at hread
  obtain ⟨hhead, hx⟩ := lex_escaped_cluster_wide h (.inl rfl) hread
  rw [hk] at hhead
  cases hhead
  exact absurd hx (by decide)

theorem lex_escaped_cluster_ne_quote {a : Char} (ha : a.toNat < 128) :
    lex (.escaped true) (k.scalars ++ t) ≠ some (('\'' :: a :: e) :: es) :=
  fun hread => absurd (lex_escaped_cluster_wide h (.inr rfl) hread).2 (Nat.not_le_of_lt ha)

/-- Unquoted, a character of several scalars is not read as a single quote. -/
theorem lex_bare_cluster_ne : lex .bare (k.scalars ++ t) ≠ some (('\'' :: e) :: es) := by
  obtain ⟨x, y, u, hk, -, -⟩ := exists_scalars h
  have hwide : kind x ≠ .plain → 128 ≤ y.toNat := wide_of_kind h hk
  rw [hk]
  show lex .bare (x :: y :: (u ++ t)) ≠ _
  cases hkind : kind x with
  | plain =>
    rw [lex_bare_plain hkind]
    apply push_ne
    rintro rfl
    exact absurd hkind (by decide)
  | blank =>
    rw [lex_bare_blank hkind]
    intro hread
    obtain ⟨ws, -, heq⟩ := Option.map_eq_some_iff.mp hread
    exact cons_ne_nil _ _ (List.cons.inj heq).1.symm
  | active =>
    rw [lex_bare_active hkind]
    simp
  | singleQuote =>
    obtain rfl := (eq_of_kind x).1 hkind
    have hy := hwide (by rw [hkind]; decide)
    rw [lex_bare_singleQuote, lex_single (ne_of_wide hy (by decide))]
    exact push_wide_ne hy (by decide)
  | doubleQuote =>
    obtain rfl := (eq_of_kind x).2.1 hkind
    have hy := hwide (by rw [hkind]; decide)
    rw [lex_bare_doubleQuote, lex_double_wide hy]
    exact push_wide_ne hy (by decide)
  | backslash =>
    obtain rfl := (eq_of_kind x).2.2 hkind
    have hy := hwide (by rw [hkind]; decide)
    rw [lex_bare_backslash, lex_escaped true (ne_of_wide hy (by decide))]
    exact push_wide_ne hy (by decide)

end

/-! ### Characters that are written unquoted -/

theorem lex_bare_append {s : List Char} (h : ∀ c ∈ s, kind c = .plain) :
    lex .bare (s ++ t) = some ((s ++ e) :: es) ↔ lex .bare t = some (e :: es) := by
  induction s with
  | nil => exact Iff.rfl
  | cons c s ih =>
    rw [cons_append, cons_append, lex_bare_plain (h c mem_cons_self), push_eq_some_cons,
      and_iff_right rfl, ih (fun d hd => h d (mem_cons_of_mem c hd))]

/-- All scalars are read as they are. -/
def IsInert (k : Character) : Prop := ∀ c ∈ k.scalars, kind c = .plain

/-- The mode behind an unquoted character that begins quoting. -/
def quotes (c : Char) : Option Mode :=
  match kind c with
  | .singleQuote => some .single
  | .doubleQuote => some .double
  | .backslash => some (.escaped true)
  | _ => none

/-- A scalar that is not inert is not read, unless it begins quoting and what follows brings it back. -/
theorem lex_bare_of_not_plain (hc : kind c ≠ .plain) :
    lex .bare (c :: t) = some ((c :: e) :: es) ↔ ∃ m, quotes c = some m ∧ lex m t = some ((c :: e) :: es) := by
  have hmode : ∀ m, quotes c = some m → lex .bare (c :: t) = lex m t →
      (lex .bare (c :: t) = some ((c :: e) :: es) ↔ ∃ m, quotes c = some m ∧ lex m t = some ((c :: e) :: es)) := by
    intro m hm hlex
    rw [hm, hlex]
    constructor
    · exact fun hread => ⟨m, rfl, hread⟩
    · rintro ⟨m', hm', hread⟩
      cases hm'
      exact hread
  have hnone : quotes c = none → lex .bare (c :: t) ≠ some ((c :: e) :: es) →
      (lex .bare (c :: t) = some ((c :: e) :: es) ↔ ∃ m, quotes c = some m ∧ lex m t = some ((c :: e) :: es)) := by
    intro hm hne
    rw [hm]
    exact iff_of_false hne (fun ⟨m, hm', _⟩ => absurd hm' (by simp))
  cases hkind : kind c with
  | plain => exact absurd hkind hc
  | blank =>
    apply hnone (by rw [quotes, hkind])
    rw [lex_bare_blank hkind]
    intro hread
    obtain ⟨ws, -, heq⟩ := Option.map_eq_some_iff.mp hread
    exact cons_ne_nil _ _ (List.cons.inj heq).1.symm
  | active =>
    apply hnone (by rw [quotes, hkind])
    rw [lex_bare_active hkind]
    simp
  | singleQuote => exact hmode .single (by rw [quotes, hkind]) (by rw [lex, hkind])
  | doubleQuote => exact hmode .double (by rw [quotes, hkind]) (by rw [lex, hkind])
  | backslash => exact hmode (.escaped true) (by rw [quotes, hkind]) (by rw [lex, hkind])

/-- Quoting that a mark follows does not bring back what began it. -/
theorem lex_quotes_wide_ne {m : Mode} (hm : quotes c = some m) {y : Char} (hy : 128 ≤ y.toNat) :
    lex m (y :: t) ≠ some ((c :: e) :: es) := by
  have hc : ¬ 128 ≤ c.toNat := by
    intro hc
    rw [quotes, kind_of_wide hc] at hm
    exact absurd hm (by simp)
  have hpush : ∀ r, push y r ≠ some ((c :: e) :: es) := fun r => push_ne (fun hyc => hc (hyc ▸ hy))
  unfold quotes at hm
  split at hm
  · cases hm
    rw [lex_single (ne_of_wide hy (by decide))]
    exact hpush _
  · cases hm
    rw [lex_double_wide hy]
    exact hpush _
  · cases hm
    rw [lex_escaped true (ne_of_wide hy (by decide))]
    exact hpush _
  · exact absurd hm (by simp)

section

variable (h : k.only? = none)
include h

/-- Unquoted, a character of several scalars is read if all scalars are inert, or if the last one begins quoting and
what follows brings it back. -/
theorem lex_bare_cluster :
    lex .bare (k.scalars ++ t) = some ((k.scalars ++ e) :: es) ↔
      (IsInert k ∧ lex .bare t = some (e :: es)) ∨
        ∃ c m, k.scalars.getLast? = some c ∧ quotes c = some m ∧ lex m t = some ((c :: e) :: es) := by
  have hinert : IsInert k →
      ¬ ∃ c m, k.scalars.getLast? = some c ∧ quotes c = some m ∧ lex m t = some ((c :: e) :: es) := by
    rintro hk ⟨c, m, hlast, hm, -⟩
    rw [quotes, hk c (mem_of_getLast? hlast)] at hm
    exact absurd hm (by simp)
  by_cases hk : IsInert k
  · rw [lex_bare_append hk, and_iff_right hk, or_iff_left (hinert hk)]
  rw [or_iff_right (fun hand => hk hand.1)]
  rcases scalars_of_only?_eq_none h with
    hline | ⟨-, hwide⟩ | ⟨before, c, after, hscalars, -, -, -, hbefore, hafter⟩
  · rw [hline]
    refine iff_of_false ?_ ?_
    · show lex .bare ('\r' :: '\n' :: t) ≠ _
      rw [lex_bare_plain (by decide), lex_bare_active (by decide)]
      simp [push]
    · rintro ⟨c, m, hlast, hm, -⟩
      cases hlast
      exact absurd hm (by simp [quotes, kind])
  · exact absurd (fun c hc => kind_of_wide (hwide c hc)) hk
  · have hplain : ∀ d ∈ before, kind d = .plain := fun d hd => kind_of_wide (hbefore d hd)
    have hkind : kind c ≠ .plain := by
      intro hkind
      apply hk
      rw [IsInert, hscalars, forall_mem_append, forall_mem_cons]
      exact ⟨hplain, hkind, fun d hd => kind_of_wide (hafter d hd)⟩
    rw [hscalars, append_assoc, append_assoc, lex_bare_append hplain, cons_append, cons_append,
      lex_bare_of_not_plain hkind]
    cases after with
    | nil => simp
    | cons y after =>
      have hy := hafter y mem_cons_self
      refine iff_of_false ?_ ?_
      · rintro ⟨m, hm, hread⟩
        exact lex_quotes_wide_ne hm hy hread
      rintro ⟨d, m, hlast, hm, -⟩
      have hd : d ∈ y :: after := by
        rw [getLast?_append_of_ne_nil _ (cons_ne_nil _ _), getLast?_cons_cons] at hlast
        exact mem_of_getLast? hlast
      rw [quotes, kind_of_wide (hafter d hd)] at hm
      exact absurd hm (by simp)

/-! ### Characters at the start of a word -/

/-- A character of several scalars begins a word with a blank or one that opens the word, or is read as inside one. -/
theorem lex_between_cases :
    (∃ x y u, k.scalars = x :: y :: u ∧ kind x = .blank ∧ 128 ≤ y.toNat) ∨
      (∃ x u, k.scalars = x :: u ∧ opensWord x = true ∧ kind x = .plain) ∨
      ((∀ c ∈ k.scalars.head?, opensWord c = false ∧ kind c ≠ .blank) ∧
        lex .between (k.scalars ++ t) = lex .bare (k.scalars ++ t)) := by
  obtain ⟨x, y, u, hk, -, -⟩ := exists_scalars h
  by_cases hblank : kind x = .blank
  · exact .inl ⟨x, y, u, hk, hblank, wide_of_kind h hk (by rw [hblank]; decide)⟩
  by_cases hopens : opensWord x = true
  · refine .inr (.inl ⟨x, y :: u, hk, hopens, ?_⟩)
    simp only [opensWord, Bool.or_eq_true, decide_eq_true_eq] at hopens
    rcases hopens with rfl | rfl
    · decide
    · decide
  · have hopens := (Bool.not_eq_true _).mp hopens
    refine .inr (.inr ⟨?_, ?_⟩)
    · rw [hk]
      intro c hc
      cases hc
      exact ⟨hopens, hblank⟩
    · rw [hk]
      show lex .between (x :: (y :: u ++ t)) = lex .bare (x :: (y :: u ++ t))
      apply lex_between_eq hblank hopens
      rintro rfl hnewline
      have hy := wide_of_kind h hk (by decide)
      exact ne_of_wide hy (by decide) (Option.some.inj hnewline)

/-- At the start of a word, a character of several scalars is read as inside one, unless it opens the word. -/
theorem lex_between_cluster :
    lex .between (k.scalars ++ t) = some ((k.scalars ++ e) :: es) ↔
      (∀ c ∈ k.scalars.head?, opensWord c = false) ∧ lex .bare (k.scalars ++ t) = some ((k.scalars ++ e) :: es) := by
  rcases lex_between_cases (t := t) h with ⟨x, y, u, hk, hblank, hy⟩ | ⟨x, u, hk, hopens, hplain⟩ | ⟨hhead, heq⟩
  · rw [hk]
    refine iff_of_false ?_ ?_
    · show lex .between (x :: y :: (u ++ t)) ≠ _
      rw [lex, hblank]
      show lex .between (y :: (u ++ t)) ≠ _
      rw [lex_between_wide hy]
      apply push_ne
      rintro rfl
      exact absurd (hblank.symm.trans (kind_of_wide hy)) (by decide)
    · rintro ⟨-, hread⟩
      have hread : lex .bare (x :: (y :: u ++ t)) = some ((x :: (y :: u ++ e)) :: es) := hread
      obtain ⟨m, hm, -⟩ := (lex_bare_of_not_plain (by rw [hblank]; decide)).mp hread
      rw [quotes, hblank] at hm
      exact absurd hm (by simp)
  · rw [hk]
    refine iff_of_false ?_ ?_
    · show lex .between (x :: (u ++ t)) ≠ _
      rw [lex, hplain]
      show (if opensWord x = true then none else _) ≠ _
      rw [if_pos hopens]
      simp
    · rintro ⟨hhead, -⟩
      exact Bool.false_ne_true ((hhead x rfl).symm.trans hopens)
  · rw [heq, and_iff_right (fun c hc => (hhead c hc).1)]

theorem lex_between_cluster_ne_nil : lex .between (k.scalars ++ t) ≠ some ([] :: es) := by
  rcases lex_between_cases (t := t) h with ⟨x, y, u, hk, hblank, hy⟩ | ⟨x, u, hk, hopens, hplain⟩ | ⟨hhead, heq⟩
  · rw [hk]
    show lex .between (x :: y :: (u ++ t)) ≠ _
    rw [lex, hblank]
    show lex .between (y :: (u ++ t)) ≠ _
    rw [lex_between_wide hy]
    exact push_ne_nil
  · rw [hk]
    show lex .between (x :: (u ++ t)) ≠ _
    rw [lex, hplain]
    show (if opensWord x = true then none else _) ≠ _
    rw [if_pos hopens]
    simp
  · rw [heq]
    obtain ⟨x, y, u, hk, -, -⟩ := exists_scalars h
    rw [hk]
    have hblank : kind x ≠ .blank := (hhead x (by rw [hk]; rfl)).2
    show lex .bare (x :: y :: (u ++ t)) ≠ _
    rw [lex]
    cases hkind : kind x with
    | plain => exact push_ne_nil
    | blank => exact absurd hkind hblank
    | active => simp
    | singleQuote =>
      have hy := wide_of_kind h hk (by rw [hkind]; decide)
      show lex .single (y :: (u ++ t)) ≠ _
      rw [lex_single (ne_of_wide hy (by decide))]
      exact push_ne_nil
    | doubleQuote =>
      have hy := wide_of_kind h hk (by rw [hkind]; decide)
      show lex .double (y :: (u ++ t)) ≠ _
      rw [lex_double_wide hy]
      exact push_ne_nil
    | backslash =>
      have hy := wide_of_kind h hk (by rw [hkind]; decide)
      show lex (.escaped true) (y :: (u ++ t)) ≠ _
      rw [lex_escaped true (ne_of_wide hy (by decide))]
      exact push_ne_nil

end

/-! ## Behind an argument or a fragment -/

/-- The end of an argument, or a single quote that is written with a backslash. -/
def Closes (t : List Char) : Prop := Ends t ∨ ∃ u, t = '\\' :: '\'' :: u

theorem Closes.cases (h : Closes t) : t = [] ∨ (∃ u, t = ' ' :: u) ∨ ∃ u, t = '\\' :: '\'' :: u := by
  rcases h with h | h
  · exact h.cases.imp_right .inl
  · exact .inr (.inr h)

theorem Closes.lex_single_ne (h : Closes t) : lex .single t ≠ some (('\'' :: e) :: es) := by
  rcases h.cases with rfl | ⟨u, rfl⟩ | ⟨u, rfl⟩
  · simp [lex]
  · rw [lex_single (by decide)]
    exact push_ne (by decide)
  · rw [lex_single (by decide)]
    exact push_ne (by decide)

theorem Closes.lex_double_ne (h : Closes t) : lex .double t ≠ some (('"' :: e) :: es) := by
  rcases h.cases with rfl | ⟨u, rfl⟩ | ⟨u, rfl⟩
  · simp [lex]
  · show push ' ' (lex .double u) ≠ _
    exact push_ne (by decide)
  · show push '\\' (push '\'' (lex .double u)) ≠ _
    exact push_ne (by decide)

theorem Closes.lex_bare_ne (h : Closes t) {x : Char} (hx : x ≠ '\'') : lex .bare t ≠ some ((x :: e) :: es) := by
  rcases h.cases with rfl | ⟨u, rfl⟩ | ⟨u, rfl⟩
  · simp [lex]
  · rw [lex_bare_blank (by decide)]
    simp
  · show push '\'' (lex .bare u) ≠ _
    exact push_ne hx.symm

theorem lex_escaped_ne_of_ends (h : Ends t) : lex (.escaped true) t ≠ some (('\\' :: e) :: es) := by
  rcases h.cases with rfl | ⟨u, rfl⟩
  · simp [lex]
  · rw [lex_escaped true (by decide)]
    exact push_ne (by decide)

end Builra.UNIXShellCommandCodec
