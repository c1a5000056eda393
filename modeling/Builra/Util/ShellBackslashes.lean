import Builra.Util.ShellWords

namespace Builra.UNIXShellCommandCodec

open Character PosixShell
open List hiding lex

/-!
# `Util.ShellBackslashes` — arguments with backslashes

What a shell reads of an argument whose special characters are escaped one by one. A character that ends in a backslash
of its own escapes what is written next; this goes well only if backslashes follow, and then a special character that
means nothing inside a word.
-/

/-- What is written for the characters can be read as these; `pending` says that a backslash of the argument escapes
what is written first. -/
def EscapesSafely : Bool → List Character → Prop
  | pending, [] => pending = false
  | true, k :: string =>
    (k = ofScalar '\\' ∧ EscapesSafely true string) ∨
      (isSpecialShellCharacter k = true ∧ k ≠ ofScalar '\n' ∧ IsInert k ∧ EscapesSafely false string)
  | false, k :: string =>
    ((k.only? ≠ none ∨ IsInert k) ∧ EscapesSafely false string) ∨
      (k.only? = none ∧ k.scalars.getLast? = some '\\' ∧ EscapesSafely true string)

def written (string : List Character) : List Char := unicodeScalars (string.flatMap encodeCharacter)

variable {k : Character} {c : Char} {string : List Character} {t e : List Char} {es : List (List Char)}

/-! ## What is written for a character -/

theorem isSpecialShellCharacter_ofScalar (c : Char) : isSpecialShellCharacter (ofScalar c) = isSpecialScalar c := rfl

theorem isSpecialShellCharacter_of_only?_eq_none (h : k.only? = none) : isSpecialShellCharacter k = false := by
  rw [isSpecialShellCharacter, h]
  rfl

theorem written_cons (k : Character) (string : List Character) :
    written (k :: string) = unicodeScalars (encodeCharacter k) ++ written string := by
  unfold written
  rw [flatMap_cons, unicodeScalars_append]

theorem written_newline (string : List Character) :
    written (ofScalar '\n' :: string) = '\'' :: '\n' :: '\'' :: written string := by
  rw [written_cons, encodeCharacter, if_pos rfl]
  rfl

theorem written_special (hc : isSpecialScalar c = true) (hne : c ≠ '\n') (string : List Character) :
    written (ofScalar c :: string) = '\\' :: c :: written string := by
  rw [written_cons, encodeCharacter, if_neg (fun h => hne (ofScalar_injective h)),
    if_pos ((isSpecialShellCharacter_ofScalar c).trans hc)]
  rfl

theorem written_not_special (hc : isSpecialScalar c = false) (string : List Character) :
    written (ofScalar c :: string) = c :: written string := by
  rw [written_cons, encodeCharacter, if_neg, if_neg (by rw [isSpecialShellCharacter_ofScalar, hc]; decide)]
  · rfl
  · exact fun h => ne_of_not_special hc (by decide) (ofScalar_injective h)

theorem written_cluster (h : k.only? = none) (string : List Character) :
    written (k :: string) = k.scalars ++ written string := by
  rw [written_cons, encodeCharacter, if_neg, if_neg (by rw [isSpecialShellCharacter_of_only?_eq_none h]; decide)]
  · rw [unicodeScalars_cons, unicodeScalars_nil, append_nil]
  · rintro rfl
    exact absurd h (by simp)

/-- The cases of a character: a newline, special, not special, or of several scalars. -/
theorem character_cases (k : Character) :
    k = ofScalar '\n' ∨ (∃ c, k = ofScalar c ∧ isSpecialScalar c = true ∧ c ≠ '\n') ∨
      (∃ c, k = ofScalar c ∧ isSpecialScalar c = false) ∨ k.only? = none := by
  rcases eq_ofScalar_or k with ⟨c, rfl⟩ | h
  · by_cases hnewline : c = '\n'
    · exact .inl (by rw [hnewline])
    · cases hc : isSpecialScalar c with
      | true => exact .inr (.inl ⟨c, rfl, hc, hnewline⟩)
      | false => exact .inr (.inr (.inl ⟨c, rfl, hc⟩))
  · exact .inr (.inr (.inr h))

/-! ## Behind a quote of the argument -/

theorem lex_single_written_ne (ht : Ends t) : lex .single (written string ++ t) ≠ some (('\'' :: e) :: es) := by
  cases string with
  | nil => exact Closes.lex_single_ne (.inl ht)
  | cons k string =>
    rcases character_cases k with rfl | ⟨c, rfl, hc, hne⟩ | ⟨c, rfl, hc⟩ | h
    · rw [written_newline]
      show lex .bare ('\n' :: '\'' :: (written string ++ t)) ≠ _
      rw [lex_bare_active (by decide)]
      simp
    · rw [written_special hc hne]
      show lex .single ('\\' :: c :: (written string ++ t)) ≠ _
      rw [lex_single (by decide)]
      exact push_ne (by decide)
    · rw [written_not_special hc]
      have hquote : c ≠ '\'' := ne_of_not_special hc (by decide)
      rw [cons_append, lex_single hquote]
      exact push_ne hquote
    · rw [written_cluster h, append_assoc]
      exact lex_single_cluster_ne h

/-- In double quotes, an escaped double quote is read as the one before it, and so on. -/
theorem lex_double_written_ne (ht : Ends t) :
    lex .double (written string ++ t) ≠ some (('"' :: unicodeScalars string) :: es) := by
  induction string with
  | nil => exact Closes.lex_double_ne (.inl ht)
  | cons k string ih =>
    rcases character_cases k with rfl | ⟨c, rfl, hc, hne⟩ | ⟨c, rfl, hc⟩ | h
    · rw [written_newline]
      show push '\'' (lex .double ('\n' :: '\'' :: (written string ++ t))) ≠ _
      exact push_ne (by decide)
    · rw [written_special hc hne]
      show lex .doubleEscaped (c :: (written string ++ t)) ≠ _
      rw [lex, if_neg hne]
      split_ifs with hescaped
      · intro hread
        obtain ⟨rfl, hread⟩ := push_eq_some_cons.mp hread
        exact ih hread
      · exact push_ne (by decide)
    · rw [written_not_special hc, cons_append, lex_double_of_not_special hc]
      exact push_ne (ne_of_not_special hc (by decide))
    · rw [written_cluster h, append_assoc]
      exact lex_double_cluster_ne h

/-- Of the scalars that begin quoting, only a backslash can be brought back. -/
theorem quotes_written_iff (ht : Ends t) :
    (∃ m, quotes c = some m ∧ lex m (written string ++ t) = some ((c :: unicodeScalars string) :: es)) ↔
      c = '\\' ∧ lex (.escaped true) (written string ++ t) = some (('\\' :: unicodeScalars string) :: es) := by
  constructor
  · rintro ⟨m, hm, hread⟩
    unfold quotes at hm
    split at hm
    case h_1 hsingle =>
      obtain rfl := (eq_of_kind c).1 hsingle
      cases hm
      exact absurd hread (lex_single_written_ne ht)
    case h_2 hdouble =>
      obtain rfl := (eq_of_kind c).2.1 hdouble
      cases hm
      exact absurd hread (lex_double_written_ne ht)
    case h_3 hslash =>
      obtain rfl := (eq_of_kind c).2.2 hslash
      cases hm
      exact ⟨rfl, hread⟩
    case h_4 => exact absurd hm (by simp)
  · rintro ⟨rfl, hread⟩
    exact ⟨.escaped true, rfl, hread⟩

/-! ## An argument -/

theorem escapesSafely_ofScalar (c : Char) (string : List Character) :
    EscapesSafely false (ofScalar c :: string) ↔ EscapesSafely false string := by
  simp [EscapesSafely]

/-- Behind an escaped special character, the character itself is read unquoted. -/
theorem lex_bare_special (hc : isSpecialScalar c = true) (hne : c ≠ '\n') (ht : Ends t)
    (hbare : lex .bare (written string ++ t) = some (unicodeScalars string :: es) ↔
      EscapesSafely false string ∧ lex .between t = some es)
    (hescaped : lex (.escaped true) (written string ++ t) = some (('\\' :: unicodeScalars string) :: es) ↔
      EscapesSafely true string ∧ lex .between t = some es) :
    lex .bare (c :: (written string ++ t)) = some ((c :: unicodeScalars string) :: es) ↔
      EscapesSafely true (ofScalar c :: string) ∧ lex .between t = some es := by
  have hinert : IsInert (ofScalar c) ↔ kind c = .plain := by simp [IsInert]
  have hbackslash : ofScalar c = ofScalar '\\' ↔ c = '\\' := ⟨ofScalar_injective, congrArg ofScalar⟩
  have hnewline : ofScalar c ≠ ofScalar '\n' := fun h => hne (ofScalar_injective h)
  rw [EscapesSafely, hinert, hbackslash, and_iff_right ((isSpecialShellCharacter_ofScalar c).trans hc),
    and_iff_right hnewline]
  by_cases hkind : kind c = .plain
  · have hc : c ≠ '\\' := by
      rintro rfl
      exact absurd hkind (by decide)
    rw [lex_bare_plain hkind, push_eq_some_cons, and_iff_right rfl, hbare]
    simp [hkind, hc]
  · rw [lex_bare_of_not_plain hkind, quotes_written_iff ht, hescaped]
    simp [hkind, and_assoc]

/-- An argument is read as it is, or with a backslash in front if this backslash escapes what is written first. -/
theorem lex_written (string : List Character) (ht : Ends t) :
    (lex .bare (written string ++ t) = some (unicodeScalars string :: es) ↔
        EscapesSafely false string ∧ lex .between t = some es) ∧
      (lex (.escaped true) (written string ++ t) = some (('\\' :: unicodeScalars string) :: es) ↔
        EscapesSafely true string ∧ lex .between t = some es) := by
  induction string with
  | nil =>
    refine ⟨?_, ?_⟩
    · show lex .bare t = some ([] :: es) ↔ false = false ∧ _
      rw [ht.lex_bare, and_iff_right rfl, and_iff_right rfl]
    · refine iff_of_false (lex_escaped_ne_of_ends ht) ?_
      rintro ⟨hpending, -⟩
      exact Bool.false_ne_true hpending.symm
  | cons k string ih =>
    obtain ⟨hbare, hescaped⟩ := ih
    rcases character_cases k with rfl | ⟨c, rfl, hc, hne⟩ | ⟨c, rfl, hc⟩ | h
    · rw [written_newline, escapesSafely_ofScalar]
      refine ⟨?_, ?_⟩
      · show push '\n' (lex .bare (written string ++ t)) = some (('\n' :: unicodeScalars string) :: es) ↔ _
        rw [push_eq_some_cons, and_iff_right rfl, hbare]
      · refine iff_of_false ?_ ?_
        · show push '\'' (lex .bare ('\n' :: '\'' :: (written string ++ t))) ≠ _
          exact push_ne (by decide)
        · rintro ⟨⟨hk, -⟩ | ⟨-, hne, -⟩, -⟩
          · exact absurd (ofScalar_injective hk) (by decide)
          · exact hne rfl
    · rw [written_special hc hne, escapesSafely_ofScalar]
      refine ⟨?_, ?_⟩
      · show lex (.escaped true) (c :: (written string ++ t)) = some ((c :: unicodeScalars string) :: es) ↔ _
        rw [lex_escaped true hne, push_eq_some_cons, and_iff_right rfl, hbare]
      · show push '\\' (lex .bare (c :: (written string ++ t))) = some (('\\' :: c :: unicodeScalars string) :: es) ↔ _
        rw [push_eq_some_cons, and_iff_right rfl]
        exact lex_bare_special hc hne ht hbare hescaped
    · rw [written_not_special hc, escapesSafely_ofScalar]
      refine ⟨?_, ?_⟩
      · show lex .bare (c :: (written string ++ t)) = some ((c :: unicodeScalars string) :: es) ↔ _
        rw [lex_bare_plain (kind_of_not_special hc), push_eq_some_cons, and_iff_right rfl, hbare]
      · refine iff_of_false ?_ ?_
        · rw [cons_append, lex_escaped true (ne_of_not_special hc (by decide))]
          exact push_ne (ne_of_not_special hc (by decide))
        · rintro ⟨⟨hk, -⟩ | ⟨hspecial, -⟩, -⟩
          · exact ne_of_not_special hc (by decide) (ofScalar_injective hk)
          · exact Bool.false_ne_true (hc.symm.trans hspecial)
    · rw [written_cluster h, append_assoc, unicodeScalars_cons]
      refine ⟨?_, iff_of_false (lex_escaped_cluster_ne h) ?_⟩
      · rw [lex_bare_cluster h, EscapesSafely, or_iff_right (not_not_intro h), and_iff_right h, hbare, or_and_right,
          and_assoc, and_assoc, ← hescaped]
        apply or_congr_right
        constructor
        · rintro ⟨c, m, hlast, hquotes⟩
          obtain ⟨rfl, hread⟩ := (quotes_written_iff ht).mp ⟨m, hquotes⟩
          exact ⟨hlast, hread⟩
        · rintro ⟨hlast, hread⟩
          exact ⟨'\\', .escaped true, hlast, rfl, hread⟩
      · rintro ⟨⟨rfl, -⟩ | ⟨hspecial, -⟩, -⟩
        · exact absurd h (by simp)
        · exact Bool.false_ne_true ((isSpecialShellCharacter_of_only?_eq_none h).symm.trans hspecial)

/-- The argument is read as it is where a word may begin. -/
def BackslashesSafely (arg : List Character) : Prop :=
  (∀ k ∈ arg.head?, k.only? = none → ∀ c ∈ k.scalars.head?, opensWord c = false) ∧ EscapesSafely false arg

/-- An argument that is not empty is read as it is exactly if its characters are safe. -/
theorem writes_written (hne : string ≠ []) :
    Writes (written string) (unicodeScalars string) (BackslashesSafely string) := by
  obtain ⟨k, string, rfl⟩ := exists_cons_of_ne_nil hne
  rcases eq_ofScalar_or k with ⟨c, rfl⟩ | h
  · have hstart : ∃ a, ∀ t,
        lex .between (written (ofScalar c :: string) ++ t) = push a (lex .bare (written string ++ t)) ∧
          lex .bare (written (ofScalar c :: string) ++ t) = push a (lex .bare (written string ++ t)) := by
      rcases character_cases (ofScalar c) with hk | ⟨d, hk, hd, hnewline⟩ | ⟨d, hk, hd⟩ | h
      · rw [hk, written_newline]
        exact ⟨'\n', fun t => ⟨rfl, rfl⟩⟩
      · rw [hk, written_special hd hnewline]
        refine ⟨d, fun t => ⟨?_, ?_⟩⟩
        · show lex (.escaped false) (d :: (written string ++ t)) = _
          rw [lex_escaped false hnewline]
        · show lex (.escaped true) (d :: (written string ++ t)) = _
          rw [lex_escaped true hnewline]
      · rw [hk, written_not_special hd]
        refine ⟨d, fun t => ⟨?_, ?_⟩⟩
        · rw [cons_append, lex_between_of_not_special hd]
        · rw [cons_append, lex_bare_plain (kind_of_not_special hd)]
      · exact absurd h (by simp)
    obtain ⟨a, ha⟩ := hstart
    have hsafe : BackslashesSafely (ofScalar c :: string) ↔ EscapesSafely false (ofScalar c :: string) := by
      simp [BackslashesSafely]
    refine ⟨?_, ?_⟩
    · intro t es ht
      rw [(ha t).1, ← (ha t).2, hsafe]
      exact (lex_written _ ht).1
    · intro t es _
      rw [(ha t).1]
      exact push_ne_nil
  · have hsafe : BackslashesSafely (k :: string) ↔
        (∀ c ∈ k.scalars.head?, opensWord c = false) ∧ EscapesSafely false (k :: string) := by
      simp [BackslashesSafely, h]
    refine ⟨?_, ?_⟩
    · intro t es ht
      have hwritten : lex .bare (written (k :: string) ++ t) = some (unicodeScalars (k :: string) :: es) ↔
          EscapesSafely false (k :: string) ∧ lex .between t = some es := (lex_written _ ht).1
      rw [written_cluster h, append_assoc, unicodeScalars_cons] at hwritten ⊢
      rw [lex_between_cluster h, hsafe, hwritten, and_assoc]
    · intro t es _
      rw [written_cluster h, append_assoc]
      exact lex_between_cluster_ne_nil h

end Builra.UNIXShellCommandCodec
