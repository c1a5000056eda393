import Mathlib.Data.Bool.AllAny
import Mathlib.Data.List.Basic
import Mathlib.Data.List.TakeWhile

/-!
# `Lib.PosixShell` — the words of a shell command line

`lex` recognises the tokens of a command line and removes their quoting. What is more than that has no reading: an
unquoted operator or newline, the start of an expansion, a pattern or a comment, and quoting without an end. Inside a
word, the head of the result is what is left of this word.
-/

namespace PosixShell

open List Option

inductive CharKind where
  | plain
  | blank
  | active
  | singleQuote
  | doubleQuote
  | backslash
deriving DecidableEq, Repr

/-- What an unquoted character means inside a word. -/
@[grind =]
def kind (c : Char) : CharKind :=
  if c = ' ' ∨ c = '\t' then .blank
  else if c = '\'' then .singleQuote
  else if c = '"' then .doubleQuote
  else if c = '\\' then .backslash
  else if c ∈ ['\n', '|', '&', ';', '<', '>', '(', ')', '$', '`', '*', '?', '['] then .active
  else .plain

/-- The characters that begin a comment or an expansion at the start of a word only. -/
def opensWord (c : Char) : Bool := c = '#' || c = '~'

inductive Mode where
  | between
  | bare
  | escaped (inWord : Bool)
  | single
  | double
  | doubleEscaped
deriving DecidableEq, Repr

/-- One more character of the current word. -/
def push (c : Char) : Option (List (List Char)) → Option (List (List Char)) :=
  Option.map (List.modifyHead (List.cons c))

@[grind =]
def lex : Mode → List Char → Option (List (List Char))
  | .between, [] => some []
  | .between, c :: t =>
    match kind c with
    | .plain => if opensWord c then none else push c (lex .bare t)
    | .blank => lex .between t
    | .active => none
    | .singleQuote => lex .single t
    | .doubleQuote => lex .double t
    | .backslash => lex (.escaped false) t
  | .bare, [] => some [[]]
  | .bare, c :: t =>
    match kind c with
    | .plain => push c (lex .bare t)
    | .blank => (lex .between t).map (List.cons [])
    | .active => none
    | .singleQuote => lex .single t
    | .doubleQuote => lex .double t
    | .backslash => lex (.escaped true) t
  | .escaped _, [] => none
  | .escaped inWord, c :: t =>
    -- an escaped newline is removed
    if c = '\n' then lex (if inWord then .bare else .between) t else push c (lex .bare t)
  | .single, [] => none
  | .single, c :: t => if c = '\'' then lex .bare t else push c (lex .single t)
  | .double, [] => none
  | .double, c :: t =>
    if c = '"' then lex .bare t
    else if c = '\\' then lex .doubleEscaped t
    else if c = '$' ∨ c = '`' then none
    else push c (lex .double t)
  | .doubleEscaped, [] => none
  | .doubleEscaped, c :: t =>
    if c = '\n' then lex .double t
    else if c ∈ ['$', '`', '"', '\\'] then push c (lex .double t)
    else push '\\' (push c (lex .double t))

variable (text : List Char)

def words : Option (List (List Char)) := lex .between text

/-! ## Command lines -/

/-- The words with a meaning of their own where a command is expected. -/
def reservedWords : List (List Char) :=
  ["!".toList, "\x7b".toList, "\x7d".toList, "case".toList, "do".toList, "done".toList, "elif".toList, "else".toList,
    "esac".toList, "fi".toList, "for".toList, "if".toList, "in".toList, "then".toList, "until".toList, "while".toList,
    "[[".toList, "]]".toList, "function".toList, "select".toList]

def isNameChar (c : Char) : Bool := c.isAlphanum || c = '_'

/-- The text begins with a name and an equals sign. -/
def StartsAssignment : Prop :=
  ∃ name rest, text = name ++ '=' :: rest ∧ (∀ c ∈ name, isNameChar c) ∧ ∃ c ∈ name.head?, ¬ c.isDigit

/-- The first word of the text is a reserved word, none of which is quoted. -/
def StartsReserved : Prop :=
  ∃ word ∈ reservedWords, ∃ rest, text = word ++ rest ∧ ∀ c ∈ rest.head?, kind c = .blank

/-- A command that is given by its name. -/
structure IsCommandName (name : List Char) : Prop where
  ne_nil : name ≠ []
  isNameChar : ∀ c ∈ name, isNameChar c
  notReserved : name ∉ reservedWords

/-- The text is a simple command: the words are its name and arguments. -/
def IsCommand (args : List (List Char)) : Prop :=
  words text = some args ∧ ¬ StartsAssignment text ∧ ¬ StartsReserved text

/-! ## The words that a text begins with -/

variable {c x : Char} {t e : List Char} {es : List (List Char)} {r : Option (List (List Char))}

theorem push_eq_some_cons : push c r = some ((x :: e) :: es) ↔ c = x ∧ r = some (e :: es) := by
  cases r with
  | none => simp [push]
  | some ws =>
    cases ws with
    | nil => simp [push]
    | cons w ws => simp [push, and_assoc]

theorem push_ne_nil : push c r ≠ some ([] :: es) := by
  cases r with
  | none => simp [push]
  | some ws =>
    cases ws with
    | nil | cons w ws => simp [push]

theorem push_ne (h : c ≠ x) : push c r ≠ some ((x :: e) :: es) := fun hpush => h (push_eq_some_cons.mp hpush).1

theorem lex_bare_plain (h : kind c = .plain) : lex .bare (c :: t) = push c (lex .bare t) := by
  rw [lex, h]

theorem lex_bare_blank (h : kind c = .blank) : lex .bare (c :: t) = (lex .between t).map (List.cons []) := by
  rw [lex, h]

theorem lex_bare_active (h : kind c = .active) : lex .bare (c :: t) = none := by
  rw [lex, h]

theorem lex_bare_singleQuote : lex .bare ('\'' :: t) = lex .single t := rfl

theorem lex_bare_doubleQuote : lex .bare ('"' :: t) = lex .double t := rfl

theorem lex_bare_backslash : lex .bare ('\\' :: t) = lex (.escaped true) t := rfl

theorem lex_escaped (inWord : Bool) (h : c ≠ '\n') : lex (.escaped inWord) (c :: t) = push c (lex .bare t) := by
  rw [lex, if_neg h]

theorem lex_single (h : c ≠ '\'') : lex .single (c :: t) = push c (lex .single t) := by
  rw [lex, if_neg h]

theorem lex_single_close : lex .single ('\'' :: t) = lex .bare t := rfl

theorem eq_of_kind (c : Char) :
    (kind c = .singleQuote → c = '\'') ∧ (kind c = .doubleQuote → c = '"') ∧ (kind c = .backslash → c = '\\') := by
  unfold kind
  split_ifs with _ hsingle hdouble hbackslash
  · simp
  · simpa using hsingle
  · simpa using hdouble
  · simpa using hbackslash
  · simp
  · simp

/-- At the start of a word, a character means what it means inside one, unless it is a blank or opens the word. -/
theorem lex_between_eq (hblank : kind c ≠ .blank) (hopens : opensWord c = false)
    (hnewline : c = '\\' → t.head? ≠ some '\n') : lex .between (c :: t) = lex .bare (c :: t) := by
  rw [lex, lex]
  cases hkind : kind c with
  | plain => rw [hopens]; rfl
  | blank => exact absurd hkind hblank
  | backslash =>
    have hc := (eq_of_kind c).2.2 hkind
    cases t with
    | nil => rfl
    | cons d t =>
      have hd : d ≠ '\n' := fun hd => hnewline hc (congrArg some hd)
      show lex (.escaped false) (d :: t) = lex (.escaped true) (d :: t)
      rw [lex_escaped false hd, lex_escaped true hd]
  | active | singleQuote | doubleQuote => rfl

/-! ## Plain characters -/

/-- The characters that mean something, inside a word or at its start. -/
def meaningful : List Char :=
  [' ', '\t', '\'', '"', '\\', '\n', '|', '&', ';', '<', '>', '(', ')', '$', '`', '*', '?', '[', '#', '~']

/-- A character with a property that none of these has is plain. -/
theorem plain_of_property {p : Char → Bool} (hc : p c = true) (h : meaningful.all (fun a => !p a) = true) :
    kind c = .plain ∧ opensWord c = false := by
  have hne : ∀ a ∈ meaningful, c ≠ a := by
    rintro a ha rfl
    have hnot := all_eq_true.mp h c ha
    rw [hc] at hnot
    exact Bool.false_ne_true hnot
  simp only [meaningful, forall_mem_cons] at hne
  refine ⟨?_, ?_⟩
  · unfold kind
    simp [hne]
  · simp [opensWord, hne]

section

variable (hc : 128 ≤ c.toNat)
include hc

theorem ne_of_wide {a : Char} (ha : a.toNat < 128) : c ≠ a := by
  rintro rfl
  exact absurd hc (Nat.not_le_of_lt ha)

theorem kind_of_wide : kind c = .plain :=
  (plain_of_property (p := fun c => decide (128 ≤ c.toNat)) (decide_eq_true hc) (by decide)).1

theorem lex_bare_wide : lex .bare (c :: t) = push c (lex .bare t) :=
  lex_bare_plain (kind_of_wide hc)

theorem lex_between_wide : lex .between (c :: t) = push c (lex .bare t) := by
  have hopens : opensWord c = false :=
    (plain_of_property (p := fun c => decide (128 ≤ c.toNat)) (decide_eq_true hc) (by decide)).2
  rw [lex_between_eq (by rw [kind_of_wide hc]; decide) hopens, lex_bare_wide hc]
  exact fun h => absurd h (ne_of_wide hc (by decide))

end

/-! ## Words that are joined -/

/-- A word ends before `t`. -/
def Ends (t : List Char) : Prop := ∀ c ∈ t.head?, c = ' '

theorem Ends.cases (h : Ends t) : t = [] ∨ ∃ u, t = ' ' :: u := by
  cases t with
  | nil => exact .inl rfl
  | cons c u =>
    obtain rfl := h c rfl
    exact .inr ⟨u, rfl⟩

theorem Ends.lex_bare (h : Ends t) : lex .bare t = some (e :: es) ↔ e = [] ∧ lex .between t = some es := by
  rcases h.cases with rfl | ⟨u, rfl⟩
  · show some [[]] = some (e :: es) ↔ e = [] ∧ some [] = some es
    simp [eq_comm]
  · rw [lex_bare_blank (by decide)]
    show _ ↔ e = [] ∧ lex .between u = some es
    rw [map_eq_some_iff]
    constructor
    · rintro ⟨ws, hws, heq⟩
      cases heq
      exact ⟨rfl, hws⟩
    · rintro ⟨rfl, hws⟩
      exact ⟨es, hws, rfl⟩

/-- A word has begun. -/
def inWord : Mode → Bool
  | .between => false
  | .escaped begun => begun
  | _ => true

theorem push_ne_some_nil {c : Char} (h : r ≠ some []) : push c r ≠ some [] := by
  intro hpush
  obtain ⟨ws, rfl, hws⟩ := map_eq_some_iff.mp hpush
  cases ws with
  | nil => exact h rfl
  | cons e es => cases hws

theorem lex_ne_some_nil {m : Mode} (hm : inWord m = true) (s : List Char) : lex m s ≠ some [] := by
  induction s generalizing m with
  | nil =>
    cases m with
    | between => cases hm
    | bare | escaped begun | single | double | doubleEscaped => exact fun h => nomatch h
  | cons c s ih =>
    cases m with
    | between => cases hm
    | bare =>
      rw [lex]
      cases kind c with
      | plain => exact push_ne_some_nil (ih rfl)
      | blank =>
        intro h
        obtain ⟨ws, -, hws⟩ := map_eq_some_iff.mp h
        cases hws
      | active => exact fun h => nomatch h
      | singleQuote | doubleQuote | backslash => exact ih rfl
    | escaped begun =>
      obtain rfl : begun = true := hm
      rw [lex]
      split
      · exact ih rfl
      · exact push_ne_some_nil (ih rfl)
    | single =>
      rw [lex]
      split
      · exact ih rfl
      · exact push_ne_some_nil (ih rfl)
    | double =>
      rw [lex]
      split
      · exact ih rfl
      · split
        · exact ih rfl
        · split
          · exact fun h => nomatch h
          · exact push_ne_some_nil (ih rfl)
    | doubleEscaped =>
      rw [lex]
      split
      · exact ih rfl
      · split
        · exact push_ne_some_nil (ih rfl)
        · exact push_ne_some_nil (push_ne_some_nil (ih rfl))

/-- The words of a text and, behind a blank, those of what follows. -/
theorem lex_append_blank {m : Mode} {s : List Char} {ws : List (List Char)} (h : lex m s = some ws) (t : List Char) :
    lex m (s ++ ' ' :: t) = (lex .between t).map (fun es => ws ++ es) := by
  have hpush : ∀ {r r' : Option (List (List Char))} {c : Char} {ws : List (List Char)}, push c r = some ws → r ≠ some [] →
      (∀ {ws'}, r = some ws' → r' = (lex .between t).map (fun es => ws' ++ es)) →
      push c r' = (lex .between t).map (fun es => ws ++ es) := by
    intro r r' c ws hws hne hr
    obtain ⟨ws', rfl, rfl⟩ := map_eq_some_iff.mp hws
    rw [hr rfl]
    cases ws' with
    | nil => exact absurd rfl hne
    | cons e es =>
      cases lex .between t with
      | none | some es' => rfl
  induction s generalizing m ws with
  | nil =>
    cases m with
    | between =>
      cases h
      show lex .between t = _
      exact map_id'.symm
    | bare =>
      cases h
      rfl
    | escaped begun | single | double | doubleEscaped => cases h
  | cons c s ih =>
    rw [cons_append]
    cases m with
    | between =>
      rw [lex] at h ⊢
      cases hkind : kind c with
      | plain =>
        simp only [hkind] at h ⊢
        split at h
        · cases h
        · rename_i hopens
          rw [if_neg hopens]
          exact hpush h (lex_ne_some_nil rfl s) (fun hs => ih hs)
      | blank | singleQuote | doubleQuote | backslash =>
        simp only [hkind] at h ⊢
        exact ih h
      | active =>
        simp only [hkind] at h
        cases h
    | bare =>
      rw [lex] at h ⊢
      cases hkind : kind c with
      | plain =>
        simp only [hkind] at h ⊢
        exact hpush h (lex_ne_some_nil rfl s) (fun hs => ih hs)
      | blank =>
        simp only [hkind] at h ⊢
        obtain ⟨ws', hws', rfl⟩ := map_eq_some_iff.mp h
        rw [ih hws', Option.map_map]
        rfl
      | active =>
        simp only [hkind] at h
        cases h
      | singleQuote | doubleQuote | backslash =>
        simp only [hkind] at h ⊢
        exact ih h
    | escaped begun =>
      rw [lex] at h ⊢
      split at h
      · rename_i hnewline
        rw [if_pos hnewline]
        exact ih h
      · rename_i hnewline
        rw [if_neg hnewline]
        exact hpush h (lex_ne_some_nil rfl s) (fun hs => ih hs)
    | single =>
      rw [lex] at h ⊢
      split at h
      · rename_i hclose
        rw [if_pos hclose]
        exact ih h
      · rename_i hclose
        rw [if_neg hclose]
        exact hpush h (lex_ne_some_nil rfl s) (fun hs => ih hs)
    | double =>
      rw [lex] at h ⊢
      split_ifs at h ⊢
      · exact ih h
      · exact ih h
      · exact hpush h (lex_ne_some_nil rfl s) (fun hs => ih hs)
    | doubleEscaped =>
      rw [lex] at h ⊢
      split_ifs at h ⊢
      · exact ih h
      · exact hpush h (lex_ne_some_nil rfl s) (fun hs => ih hs)
      · exact hpush h (push_ne_some_nil (lex_ne_some_nil rfl s))
          (fun hs => hpush hs (lex_ne_some_nil rfl s) (fun hs' => ih hs'))

/-- What is written is read as the word under the condition `ok`, and only then. -/
structure Writes (written word : List Char) (ok : Prop) : Prop where
  read : ∀ {t es}, Ends t → (lex .between (written ++ t) = some (word :: es) ↔ ok ∧ lex .between t = some es)
  ne_nil : ∀ {t es}, Ends t → lex .between (written ++ t) ≠ some ([] :: es)

section

variable {separator : List Char} {α : Type} {written word : α → List Char} {ok : α → Prop} {l : List α}

/-- What follows the first of the words: the end, or the separator and the other words. -/
theorem intercalate_cons (hne : separator ≠ []) (hblank : ∀ c ∈ separator, c = ' ') (a : α) (l : List α) :
    ∃ t, separator.intercalate ((a :: l).map written) = written a ++ t ∧ Ends t ∧
      lex .between t = lex .between (separator.intercalate (l.map written)) := by
  cases l with
  | nil =>
    refine ⟨[], ?_, by simp [Ends], rfl⟩
    show separator.intercalate [written a] = _
    rw [intercalate_singleton, append_nil]
  | cons b l =>
    refine ⟨separator ++ separator.intercalate ((b :: l).map written), ?_, ?_, ?_⟩
    · show separator.intercalate (written a :: written b :: l.map written) = _
      rw [intercalate_cons_cons, append_assoc]
      rfl
    · intro c hc
      rw [List.head?_append_of_ne_nil _ hne] at hc
      exact hblank c (mem_of_mem_head? hc)
    · generalize separator.intercalate ((b :: l).map written) = text
      clear hne
      induction separator with
      | nil => rfl
      | cons c separator ih =>
        obtain rfl := hblank c mem_cons_self
        show lex .between (separator ++ text) = _
        exact ih (fun d hd => hblank d (mem_cons_of_mem _ hd))

/-- No empty word is read from words that are not empty. -/
theorem lex_intercalate_ne_nil (hne : separator ≠ []) (hblank : ∀ c ∈ separator, c = ' ')
    (h : ∀ a ∈ l, written a = [] ∨ Writes (written a) (word a) (ok a)) {es : List (List Char)} :
    lex .between (separator.intercalate (l.map written)) ≠ some ([] :: es) := by
  induction l with
  | nil => simp [lex]
  | cons a l ih =>
    obtain ⟨t, htext, hends, hrest⟩ := @intercalate_cons _ _ written hne hblank a l
    rw [htext]
    rcases h a mem_cons_self with hnil | hwrites
    · rw [hnil, nil_append, hrest]
      exact ih (fun b hb => h b (mem_cons_of_mem _ hb))
    · exact hwrites.ne_nil hends

/-- Words that are joined are read as these words if each can be read; an empty word that is written as nothing is
lost. -/
theorem lex_intercalate (hne : separator ≠ []) (hblank : ∀ c ∈ separator, c = ' ')
    (h : ∀ a ∈ l, (written a = [] ∧ word a = [] ∧ ¬ ok a) ∨ Writes (written a) (word a) (ok a)) :
    lex .between (separator.intercalate (l.map written)) = some (l.map word) ↔ ∀ a ∈ l, ok a := by
  induction l with
  | nil => simp [lex]
  | cons a l ih =>
    have htail := fun b hb => h b (mem_cons_of_mem a hb)
    obtain ⟨t, htext, hends, hrest⟩ := @intercalate_cons _ _ written hne hblank a l
    rw [htext, forall_mem_cons, map_cons]
    rcases h a mem_cons_self with ⟨hwritten, hword, hok⟩ | hwrites
    · rw [hwritten, hword, nil_append, hrest]
      refine iff_of_false ?_ (fun hall => hok hall.1)
      exact lex_intercalate_ne_nil hne hblank (fun b hb => (htail b hb).imp_left And.left)
    · rw [hwrites.read hends, hrest, ih htail]

end

/-! ## The start of a command line -/

theorem lex_bare_eq_some {s : List Char} (h : ∀ c ∈ s, kind c = .plain) {a : List Char} :
    lex .bare (s ++ t) = some (a :: es) ↔ ∃ e, a = s ++ e ∧ lex .bare t = some (e :: es) := by
  induction s generalizing a with
  | nil => simp
  | cons c s ih =>
    have ih := fun e => ih (a := e) (fun d hd => h d (mem_cons_of_mem c hd))
    rw [cons_append, lex_bare_plain (h c mem_cons_self)]
    cases a with
    | nil => exact iff_of_false push_ne_nil (fun ⟨e, he, _⟩ => cons_ne_nil _ _ he.symm)
    | cons x a =>
      rw [push_eq_some_cons, ih a]
      constructor
      · rintro ⟨rfl, e, rfl, hread⟩
        exact ⟨e, rfl, hread⟩
      · rintro ⟨e, he, hread⟩
        cases he
        exact ⟨rfl, e, rfl, hread⟩

/-- A word of plain characters is read up to the blank behind it. -/
theorem lex_between_word {w : List Char} (hplain : ∀ c ∈ w, kind c = .plain)
    (hopens : ∀ c ∈ w.head?, opensWord c = false) (hne : w ≠ []) (ht : ∀ c ∈ t.head?, kind c = .blank) {a : List Char} :
    lex .between (w ++ t) = some (a :: es) ↔ a = w ∧ lex .between t = some es := by
  have hend : ∀ e, lex .bare t = some (e :: es) ↔ e = [] ∧ lex .between t = some es := by
    intro e
    cases t with
    | nil =>
      show some [[]] = some (e :: es) ↔ e = [] ∧ some [] = some es
      simp [eq_comm]
    | cons c t =>
      have hc := ht c rfl
      rw [lex_bare_blank hc]
      have hskip : lex .between (c :: t) = lex .between t := by rw [lex, hc]
      rw [hskip, map_eq_some_iff]
      constructor
      · rintro ⟨ws, hws, heq⟩
        cases heq
        exact ⟨rfl, hws⟩
      · rintro ⟨rfl, hws⟩
        exact ⟨es, hws, rfl⟩
  have hstart : lex .between (w ++ t) = lex .bare (w ++ t) := by
    obtain ⟨c, w, rfl⟩ := exists_cons_of_ne_nil hne
    have hc := hplain c mem_cons_self
    apply lex_between_eq (by rw [hc]; decide) (hopens c rfl)
    rintro rfl
    exact absurd hc (by decide)
  rw [hstart, lex_bare_eq_some hplain]
  constructor
  · rintro ⟨e, rfl, hread⟩
    obtain ⟨rfl, hrest⟩ := (hend e).mp hread
    exact ⟨append_nil w, hrest⟩
  · rintro ⟨rfl, hread⟩
    exact ⟨[], (append_nil a).symm, (hend []).mpr ⟨rfl, hread⟩⟩

/-- A reserved word at the start of the text is the first word that is read. -/
theorem mem_reservedWords (h : StartsReserved t) {a : List Char} (hread : lex .between t = some (a :: es)) :
    a ∈ reservedWords := by
  obtain ⟨w, hw, rest, rfl, hrest⟩ := h
  have hcases : ∀ w ∈ reservedWords,
      (w ≠ [] ∧ w.all (fun c => kind c = .plain) = true ∧ w.head?.all (fun c => !opensWord c) = true) ∨
        w = "[[".toList := by decide
  rcases hcases w hw with ⟨hne, hplain, hopens⟩ | rfl
  · have hopens' : ∀ c ∈ w.head?, opensWord c = false := by
      intro c hc
      rw [mem_def.mp hc] at hopens
      exact Bool.not_eq_true' _ |>.mp hopens
    obtain ⟨rfl, -⟩ := (lex_between_word (all_iff_forall_prop.mp hplain) hopens' hne hrest).mp hread
    exact hw
  · exact absurd hread (by simp [lex, kind])

theorem startsAssignment_append {s u : List Char} (hu : ∀ c ∈ u.head?, isNameChar c = false ∧ c ≠ '=') :
    StartsAssignment (s ++ u) ↔ StartsAssignment s := by
  constructor
  · rintro ⟨name, rest, htext, hname, hfirst⟩
    rcases append_eq_append_iff.mp htext with ⟨m, hm, hu'⟩ | ⟨m, hm, hrest⟩
    · -- the name goes on behind `s`
      cases m with
      | nil => exact absurd rfl (hu '=' (by rw [hu']; rfl)).2
      | cons c m =>
        have hc : isNameChar c = true := hname c (by rw [hm]; simp)
        exact absurd (hu c (by rw [hu']; rfl)).1 (by rw [hc]; decide)
    · cases m with
      | nil => exact absurd rfl (hu '=' (by rw [← nil_append u, ← hrest]; rfl)).2
      | cons c m =>
        obtain ⟨rfl, -⟩ := List.cons.inj hrest
        exact ⟨name, m, hm, hname, hfirst⟩
  · rintro ⟨name, rest, rfl, hname, hfirst⟩
    exact ⟨name, rest ++ u, by simp, hname, hfirst⟩

theorem isNameChar_plain (hc : isNameChar c = true) : kind c = .plain ∧ opensWord c = false ∧ c ≠ '=' := by
  have hplain := plain_of_property hc (by decide)
  refine ⟨hplain.1, hplain.2, ?_⟩
  rintro rfl
  exact absurd hc (by decide)

/-- Behind the name of a command, the text gives its arguments. -/
theorem isCommand_name {name : List Char} (h : IsCommandName name) {args : List (List Char)} :
    IsCommand (name ++ ' ' :: t) (name :: args) ↔ words t = some args := by
  have hread : words (name ++ ' ' :: t) = some (name :: args) ↔ words t = some args := by
    have hopens : ∀ c ∈ name.head?, opensWord c = false := fun c hc =>
      (isNameChar_plain (h.isNameChar c (mem_of_mem_head? hc))).2.1
    have hblank : ∀ c ∈ (' ' :: t).head?, kind c = .blank := by
      intro c hc
      cases hc
      decide
    unfold words
    rw [lex_between_word (fun c hc => (isNameChar_plain (h.isNameChar c hc)).1) hopens h.ne_nil hblank,
      and_iff_right rfl]
    rfl
  unfold IsCommand
  rw [hread]
  refine and_iff_left_of_imp (fun hargs => ⟨?_, ?_⟩)
  · rw [startsAssignment_append]
    · rintro ⟨name', rest, htext, -, -⟩
      have hequals : '=' ∈ name := by simp [htext]
      exact (isNameChar_plain (h.isNameChar '=' hequals)).2.2 rfl
    · intro c hc
      cases hc
      decide
  · exact fun hreserved => h.notReserved (mem_reservedWords hreserved (hread.mpr hargs))

end PosixShell
