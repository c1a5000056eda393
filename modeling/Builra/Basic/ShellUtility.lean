import Builra.Lib.Positions
import Builra.Lib.PosixShell
import Mathlib

namespace Builra

open List

/-!
# `Basic.ShellUtility` — words for shell command lines

`shellEscaped` on systems other than Windows. A word of harmless characters is written as it is, also when there are
none, and when it begins with the character that begins a comment.
-/

open PosixShell

namespace ShellUtility

def whitelist : List Char := "abcdefghijklmnopqrstuvwxyzABCDEFGHIJKLMNOPQRSTUVWXYZ1234567890-_/:@#%+=.,".toList

/-- A character between single quotes. -/
def quoted (c : Char) : List Char := if c = '\'' then "'\\''".toList else [c]

/-- `shellEscaped`, what `appendShellEscapedString` writes. -/
def shellEscaped (string : List Char) : List Char :=
  match string.findIdx? (fun c => c ∉ whitelist) with
  | none => string
  | some pos =>
    match (string.drop pos).findIdx? (fun c => c = '\'') with
    | none => '\'' :: (string ++ ['\''])
    | some n =>
      let singleQuotePos := pos + n
      '\'' :: (string.take singleQuotePos ++ ((string.drop singleQuotePos).flatMap quoted ++ ['\'']))

theorem flatMap_quoted_of_forall {s : List Char} (h : ∀ c ∈ s, c ≠ '\'') : s.flatMap quoted = s := by
  induction s with
  | nil => rfl
  | cons c s ih =>
    rw [flatMap_cons, ih (fun d hd => h d (mem_cons_of_mem c hd)), quoted, if_neg (h c mem_cons_self)]
    rfl

theorem ne_quote_of_mem_whitelist {c : Char} (h : c ∈ whitelist) : c ≠ '\'' := by
  rintro rfl
  revert h
  decide

/-- From the first single quote on, or all of it: what stands before is the same between quotes. -/
theorem shellEscaped_eq (s : List Char) :
    shellEscaped s = if ∀ c ∈ s, c ∈ whitelist then s else '\'' :: (s.flatMap quoted ++ ['\'']) := by
  unfold shellEscaped
  cases hpos : s.findIdx? (fun c => c ∉ whitelist) with
  | none =>
    rw [if_pos]
    intro c hc
    simpa using findIdx?_eq_none_iff.mp hpos c hc
  | some pos =>
    have hsafe : ∀ c ∈ s.take pos, c ≠ '\'' := fun c hc =>
      ne_quote_of_mem_whitelist (by simpa using Positions.eq_false_of_mem_take hpos c hc)
    rw [if_neg]
    · cases hn : (s.drop pos).findIdx? (fun c => c = '\'') with
      | none =>
        have hrest : ∀ c ∈ s.drop pos, c ≠ '\'' := fun c hc => by simpa using findIdx?_eq_none_iff.mp hn c hc
        have hall : ∀ c ∈ s, c ≠ '\'' := by
          intro c hc
          rw [← take_append_drop pos s] at hc
          exact (mem_append.mp hc).elim (hsafe c) (hrest c)
        simp only [hn]
        rw [flatMap_quoted_of_forall hall]
      | some n =>
        have htake : ∀ c ∈ s.take (pos + n), c ≠ '\'' := by
          intro c hc
          rw [take_add] at hc
          refine (mem_append.mp hc).elim (hsafe c) (fun hc => ?_)
          simpa using Positions.eq_false_of_mem_take hn c hc
        simp only [hn]
        conv_rhs => rw [← take_append_drop (pos + n) s, flatMap_append, flatMap_quoted_of_forall htake]
        rw [append_assoc]
    · intro hall
      have hsome : (s.findIdx? (fun c => decide (c ∉ whitelist))).isSome = s.any (fun c => decide (c ∉ whitelist)) :=
        findIdx?_isSome
      rw [hpos] at hsome
      obtain ⟨c, hc, hnot⟩ := any_eq_true.mp hsome.symm
      exact (of_decide_eq_true hnot) (hall c hc)

/-! ## What the shell reads -/

variable {s t : List Char} {e : List Char} {es : List (List Char)}

theorem plain_of_mem_whitelist {c : Char} (h : c ∈ whitelist) : kind c = .plain := by
  have hall : whitelist.all (fun c => kind c = .plain) = true := by decide
  exact of_decide_eq_true (all_eq_true.mp hall c h)

theorem opensWord_of_mem_whitelist {c : Char} (h : c ∈ whitelist) : opensWord c = true ↔ c = '#' := by
  have hall : whitelist.all (fun c => decide (opensWord c = true) == decide (c = '#')) = true := by decide
  have hc := all_eq_true.mp hall c h
  rw [beq_iff_eq, decide_eq_decide] at hc
  exact hc

/-- What stands between single quotes, and after the closing one. -/
theorem lex_single_quoted (s t : List Char) :
    lex .single (s.flatMap quoted ++ '\'' :: t) = s.foldr push (lex .bare t) := by
  induction s with
  | nil => rfl
  | cons c s ih =>
    rw [flatMap_cons, append_assoc, foldr_cons, ← ih, quoted]
    by_cases hc : c = '\''
    · rw [if_pos hc, hc]
      rfl
    · rw [if_neg hc]
      exact lex_single hc

theorem foldr_push (s : List Char) : s.foldr push (some (e :: es)) = some ((s ++ e) :: es) := by
  induction s with
  | nil => rfl
  | cons c s ih =>
    rw [foldr_cons, ih]
    rfl

/-- What is written as it is, and is nothing or begins with the character that begins comments. -/
def Bare (s : List Char) : Prop := (∀ c ∈ s, c ∈ whitelist) ∧ (s = [] ∨ s.head? = some '#')

theorem lex_shellEscaped (hs : ¬ Bare s) (ht : Ends t) (hrest : lex .between t = some es) :
    lex .between (shellEscaped s ++ t) = some (s :: es) := by
  rw [shellEscaped_eq]
  by_cases hall : ∀ c ∈ s, c ∈ whitelist
  · rw [if_pos hall]
    have hne : s ≠ [] := fun h => hs ⟨hall, .inl h⟩
    have hopens : ∀ c ∈ s.head?, opensWord c = false := by
      intro c hc
      rw [← Bool.not_eq_true, opensWord_of_mem_whitelist (hall c (mem_of_mem_head? hc))]
      rintro rfl
      exact hs ⟨hall, .inr hc⟩
    have hblank : ∀ c ∈ t.head?, kind c = .blank := by
      intro c hc
      rw [ht c hc]
      decide
    exact (lex_between_word (fun c hc => plain_of_mem_whitelist (hall c hc)) hopens hne hblank).mpr ⟨rfl, hrest⟩
  · rw [if_neg hall]
    show lex .between ('\'' :: (s.flatMap quoted ++ ['\''] ++ t)) = _
    rw [append_assoc, singleton_append]
    show lex .single (s.flatMap quoted ++ '\'' :: t) = _
    rw [lex_single_quoted, ht.lex_bare.mpr ⟨rfl, hrest⟩, foldr_push, append_nil]

/-- In every position behind other words, `shellEscaped` is read as the one word it was made of. -/
def IsOneWord (s : List Char) : Prop :=
  ∀ before ws after es, words before = some ws → ws ≠ [] → Ends after → words after = some es →
    words (before ++ ' ' :: (shellEscaped s ++ after)) = some (ws ++ s :: es)

theorem isOneWord_iff (s : List Char) : IsOneWord s ↔ ¬ Bare s := by
  constructor
  · rintro h ⟨hall, hhead⟩
    have hread := h ['x'] [['x']] [] [] rfl (cons_ne_nil _ _) (fun _ hc => nomatch hc) rfl
    rw [shellEscaped_eq, if_pos hall, append_nil] at hread
    rcases hhead with rfl | hhead
    · revert hread
      decide
    · obtain ⟨u, rfl⟩ := head?_eq_some_iff.mp hhead
      cases hread
  · intro hs before ws after es hbefore _ hends hafter
    have hread := lex_shellEscaped hs hends hafter
    show lex .between (before ++ ' ' :: (shellEscaped s ++ after)) = _
    rw [lex_append_blank hbefore, hread]
    rfl

/-- An empty word is lost, and `#foo` begins a comment. -/
theorem not_isOneWord : ¬ ∀ s : List Char, IsOneWord s := by
  intro h
  have hread := h [] ['x'] [['x']] [] [] rfl (cons_ne_nil _ _) (fun _ hc => nomatch hc) rfl
  revert hread
  decide

end ShellUtility

end Builra
