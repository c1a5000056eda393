import Builra.Macro.ConditionExpression

namespace Builra.Macro

open List

/-!
# `Macro.ConditionScanner` — the tokens of a condition and the text that they are made from

`getNextToken` cuts a text into whitespace and the parts that tokens are made from (`Partition`). What a token says
about its offset and length is computed apart from the cursor (`Covers`): the quotes are not in it, and an invalid
token says more than the character that it was made from. A quote inside a quoted token ends it, also behind a
backslash.
-/

/-! ## What a token is made from -/

/-- A token that is made from `covered`, which is at `offset` and has `after` behind it. -/
inductive Covers : (offset : Nat) → (covered after : Text) → Token → Prop where
  | plain {offset type l after} : l ≠ [] → type ≠ .invalid →
      Covers offset l after ⟨type, offset, l⟩
  | quoted {offset quoteChar body after} :
      Covers offset (quoteChar :: body ++ [quoteChar]) after ⟨.string, offset + 1, body⟩
  | unterminated {offset quoteChar body} :
      Covers offset (quoteChar :: body) [] ⟨.string, offset + 1, body⟩
  | invalid {offset c after} :
      Covers offset [c] after ⟨.invalid, offset, (c :: after).takeWhile (fun c => c > 32)⟩

/-- The text from `offset` on is whitespace and the parts that the tokens are made from, up to its end or to a zero
byte where a token could start. -/
inductive Partition : (offset : Nat) → Text → List Token → Prop where
  | eof {offset ws rest} : (∀ c ∈ ws, isAtWhitespace [c] = true) → (rest = [] ∨ rest.head? = some 0) →
      Partition offset (ws ++ rest) []
  | token {offset ws covered rest token tokens} :
      (∀ c ∈ ws, isAtWhitespace [c] = true) → Covers (offset + ws.length) covered rest token →
      Partition (offset + ws.length + covered.length) rest tokens →
      Partition offset (ws ++ covered ++ rest) (token :: tokens)

section Partition

variable {string : Text}

theorem keyword_ne_invalid (token : Text) : keyword token ≠ .invalid := by
  unfold keyword
  split_ifs <;> decide

variable {after rest : Text} {token : Token}

/-- At the cursor, a token of `l`. -/
theorem tokenAt_covers {l after' : Text} {type : TokenType}
    (h : tokenAt string rest type l after = some (token, after')) (hl : l ≠ []) (htype : type ≠ .invalid) :
    after' = after ∧ Covers (string.length - rest.length) l after token := by
  cases h
  exact ⟨rfl, .plain hl htype⟩

theorem pairToken_covers {c second : UInt8} {cs : Text} {pair : TokenType} {single : Option TokenType}
    (hpair : pair ≠ .invalid) (hsingle : single ≠ some .invalid)
    (h : pairToken string (c :: cs) second pair single = some (token, after)) :
    ∃ covered, c :: cs = covered ++ after ∧ Covers (string.length - (c :: cs).length) covered after token := by
  unfold pairToken at h
  dsimp only at h
  split_ifs at h with hsecond
  · obtain ⟨rfl, hc⟩ := tokenAt_covers h (cons_ne_nil _ _) hpair
    obtain ⟨rest, rfl⟩ := List.head?_eq_some_iff.mp hsecond
    exact ⟨[c, second], rfl, hc⟩
  · cases single with
    | some type =>
      obtain ⟨rfl, hc⟩ := tokenAt_covers h (cons_ne_nil _ _) (fun heq => hsingle (congrArg some heq))
      exact ⟨[c], rfl, hc⟩
    | none =>
      cases h
      exact ⟨[c], rfl, .invalid⟩

/-- A quoted string ends at a quote, or at the end of the text. -/
theorem scanQuoted_stops (quoteChar : UInt8) (rest : Text) :
    ∃ body stop, rest = body ++ stop ∧ scanQuoted quoteChar rest = stop ∧ (stop = [] ∨ stop.head? = some quoteChar) := by
  induction rest using scanQuoted.induct quoteChar with
  | case1 => exact ⟨[], [], rfl, rfl, .inl rfl⟩
  | case2 => exact ⟨_, [], (append_nil _).symm, by simp [scanQuoted], .inl rfl⟩
  | case3 ds => exact ⟨[ascii '\\'], _, rfl, by simp [scanQuoted], .inr rfl⟩
  | case4 d ds hne ih =>
    obtain ⟨body, stop, rfl, hstop, hend⟩ := ih
    refine ⟨ascii '\\' :: d :: body, stop, rfl, ?_, hend⟩
    rw [scanQuoted]
    simpa [hne] using hstop
  | case5 cs hbackslash =>
    refine ⟨[], _, rfl, ?_, .inr rfl⟩
    rw [scanQuoted.eq_def]
    simp only [if_neg hbackslash, if_true]
  | case6 c cs hbackslash hquote ih =>
    obtain ⟨body, stop, rfl, hstop, hend⟩ := ih
    refine ⟨c :: body, stop, rfl, ?_, hend⟩
    rw [scanQuoted.eq_def]
    simpa only [if_neg hbackslash, if_neg hquote] using hstop

/-- A quoted token, from its quote on. -/
theorem quoted_covers (quoteChar : UInt8) (cs : Text) (offset : Nat) :
    ∃ covered, quoteChar :: cs = covered ++ (scanQuoted quoteChar cs).tail ∧
      Covers offset covered (scanQuoted quoteChar cs).tail
        ⟨.string, offset + 1, slice cs (scanQuoted quoteChar cs)⟩ := by
  obtain ⟨body, stop, rfl, hstop, hend⟩ := scanQuoted_stops quoteChar cs
  rw [hstop, slice_of_append]
  rcases hend with rfl | hhead
  · exact ⟨quoteChar :: body, by simp, .unterminated⟩
  · obtain ⟨after, rfl⟩ := List.head?_eq_some_iff.mp hhead
    exact ⟨quoteChar :: body ++ [quoteChar], by simp, .quoted⟩

theorem isAtWhitespace_of_mem_takeWhile (start : Text) :
    ∀ c ∈ start.takeWhile (fun c => isAtWhitespace [c]), isAtWhitespace [c] = true := by
  intro c hc
  have hspace := mem_takeWhile_imp hc
  exact hspace

/-- A token, where the whitespace ends. -/
theorem Scans.covers (hlen : rest.length ≤ string.length) (h : Scans string rest (some (token, after))) :
    ∃ covered, rest = covered ++ after ∧ Covers (string.length - rest.length) covered after token := by
  generalize hnext : some (token, after) = next at h
  cases h with
  | eof => cases hnext
  | pair hpair hsingle => exact pairToken_covers hpair hsingle hnext.symm
  | @single c cs type htype =>
    obtain ⟨rfl, hc⟩ := tokenAt_covers hnext.symm (cons_ne_nil _ _) htype
    exact ⟨[c], rfl, hc⟩
  | @quoted c cs =>
    cases hnext
    obtain ⟨covered, hcov, hc⟩ := quoted_covers c cs (string.length - (c :: cs).length)
    -- the token begins behind its quote
    have hoff : string.length - (c :: cs).length + 1 = string.length - cs.length := by
      rw [length_cons] at hlen ⊢
      omega
    exact ⟨covered, hcov, hoff ▸ hc⟩
  | @word c cs word hc hword =>
    have hne : word ≠ [] := by
      rw [hword, takeWhile_cons_of_pos (by simp [hc])]
      exact cons_ne_nil _ _
    obtain ⟨rfl, hcov⟩ := tokenAt_covers hnext.symm hne (keyword_ne_invalid _)
    refine ⟨word, ?_, hcov⟩
    subst hword
    exact (prefix_iff_eq_append.mp (List.takeWhile_prefix _)).symm

/-- A token, with the whitespace in front of it. -/
theorem getNextToken_covers {start : Text} (hlen : start.length ≤ string.length)
    (h : getNextToken string start = some (token, after)) :
    ∃ ws covered, start = ws ++ covered ++ after ∧ (∀ c ∈ ws, isAtWhitespace [c] = true) ∧
      Covers (string.length - start.length + ws.length) covered after token := by
  have hscans := getNextToken_scans string start
  have hws := isAtWhitespace_of_mem_takeWhile start
  have hcut : start.takeWhile (fun c => isAtWhitespace [c]) ++ start.dropWhile (fun c => isAtWhitespace [c]) = start :=
    takeWhile_append_dropWhile
  rw [h] at hscans
  generalize start.takeWhile (fun c => isAtWhitespace [c]) = ws at hws hcut
  generalize start.dropWhile (fun c => isAtWhitespace [c]) = rest at hscans hcut
  have hlength : ws.length + rest.length = start.length := by rw [← hcut, length_append]
  obtain ⟨covered, hrest, hc⟩ := hscans.covers (show rest.length ≤ string.length by omega)
  have hoffset : string.length - start.length + ws.length = string.length - rest.length := by omega
  exact ⟨ws, covered, by rw [append_assoc, ← hrest, hcut], hws, hoffset ▸ hc⟩

/-- The scanner finds no token at the end of the text, and at a zero byte. -/
theorem getNextToken_eq_none {start : Text} (h : getNextToken string start = none) :
    ∃ ws rest, start = ws ++ rest ∧ (∀ c ∈ ws, isAtWhitespace [c] = true) ∧ (rest = [] ∨ rest.head? = some 0) := by
  refine ⟨_, _, takeWhile_append_dropWhile.symm, isAtWhitespace_of_mem_takeWhile start, ?_⟩
  have hscans := getNextToken_scans string start
  rw [h] at hscans
  generalize start.dropWhile (fun c => isAtWhitespace [c]) = rest at hscans
  generalize hnext : (none : Option (Token × Text)) = next at hscans
  cases hscans with
  | eof hend => exact hend
  | pair =>
    unfold pairToken at hnext
    dsimp only at hnext
    split_ifs at hnext
    · exact absurd hnext.symm (Option.some_ne_none _)
    · split at hnext <;> exact absurd hnext.symm (Option.some_ne_none _)
  | single | quoted | word => exact absurd hnext.symm (Option.some_ne_none _)

theorem tokens_partition {fuel : Nat} (hfuel : rest.length < fuel) (hlen : rest.length ≤ string.length) :
    Partition (string.length - rest.length) rest (tokens string fuel rest) := by
  induction fuel generalizing rest with
  | zero => exact absurd hfuel (Nat.not_lt_zero _)
  | succ fuel ih =>
    unfold tokens
    cases h : getNextToken string rest with
    | none =>
      obtain ⟨ws, stop, rfl, hws, hstop⟩ := getNextToken_eq_none h
      exact .eof hws hstop
    | some next =>
      obtain ⟨token, after⟩ := next
      have hshorter := getNextToken_shorter h
      obtain ⟨ws, covered, rfl, hws, hcovers⟩ := getNextToken_covers hlen h
      refine .token hws hcovers ?_
      have hoffset : string.length - (ws ++ covered ++ after).length + ws.length + covered.length
          = string.length - after.length := by
        simp only [length_append] at hlen ⊢
        omega
      rw [hoffset]
      exact ih (by omega) (by omega)

end Partition

/-! ## Quoting a text -/

/-- The text with a backslash in front of every backslash and every quote. -/
def escaped (quoteChar : UInt8) (t : Text) : Text :=
  t.flatMap fun c => if c = ascii '\\' ∨ c = quoteChar then [ascii '\\', c] else [c]

theorem unescaped_cons {c : UInt8} (hc : c ≠ ascii '\\') (l : Text) : unescaped (c :: l) = c :: unescaped l := by
  cases l with
  | nil => rfl
  | cons d l => rw [unescaped, if_neg hc]

theorem unescaped_escaped (quoteChar : UInt8) (t : Text) : unescaped (escaped quoteChar t) = t := by
  induction t with
  | nil => rfl
  | cons c t ih =>
    unfold escaped at ih ⊢
    rw [flatMap_cons]
    split_ifs with hc
    · rw [cons_append, cons_append, nil_append, unescaped, if_pos rfl, ih]
    · rw [cons_append, nil_append, unescaped_cons (fun h => hc (.inl h)), ih]

/-- Without a quote in it, a quoted text is scanned up to its quote. -/
theorem scanQuoted_escaped {quoteChar : UInt8} (hquote : quoteChar ≠ ascii '\\') {t : Text} (ht : quoteChar ∉ t)
    (rest : Text) : scanQuoted quoteChar (escaped quoteChar t ++ quoteChar :: rest) = quoteChar :: rest := by
  induction t with
  | nil =>
    show scanQuoted quoteChar (quoteChar :: rest) = _
    rw [scanQuoted.eq_def]
    simp only [if_neg hquote, if_true]
  | cons c t ih =>
    have hc : c ≠ quoteChar := fun h => ht (h ▸ mem_cons_self)
    have hrest := ih (fun h => ht (mem_cons_of_mem _ h))
    unfold escaped at hrest ⊢
    rw [flatMap_cons]
    split_ifs with hbackslash
    · have hc' : c = ascii '\\' := hbackslash.resolve_right hc
      simp only [cons_append, nil_append]
      rw [scanQuoted.eq_def]
      simpa only [if_true, if_neg hc] using hrest
    · simp only [cons_append, nil_append]
      rw [scanQuoted.eq_def]
      simpa only [if_neg (fun h => hbackslash (Or.inl h)), if_neg hc] using hrest

/-- A quoted text is one token. -/
theorem getNextToken_quoted (string : Text) {quoteChar : UInt8} (hquote : quoteChar = ascii '\'' ∨ quoteChar = ascii '"')
    {t : Text} (ht : quoteChar ∉ t) (rest : Text) :
    getNextToken string (quoteChar :: escaped quoteChar t ++ quoteChar :: rest) =
      some (⟨.string, string.length - (escaped quoteChar t ++ quoteChar :: rest).length, escaped quoteChar t⟩, rest) := by
  have hne : quoteChar ≠ ascii '\\' := by rcases hquote with rfl | rfl <;> decide
  have hscan := scanQuoted_escaped hne ht rest
  unfold getNextToken
  rw [cons_append, dropWhile_cons_of_neg (by rcases hquote with rfl | rfl <;> decide)]
  dsimp only
  rcases hquote with rfl | rfl
  all_goals
    rw [hscan, slice_of_append]
    rfl

/-- The tokens of a text, and a quoted text as a token. -/
theorem scanner_partitions :
    (∀ string, Partition 0 string (tokensOf string)) ∧
    ∀ (string : Text) (quoteChar : UInt8) (t rest : Text), (quoteChar = ascii '\'' ∨ quoteChar = ascii '"') →
      quoteChar ∉ t →
      getNextToken string (quoteChar :: escaped quoteChar t ++ quoteChar :: rest) =
        some (⟨.string, string.length - (escaped quoteChar t ++ quoteChar :: rest).length, escaped quoteChar t⟩, rest) ∧
      unescaped (escaped quoteChar t) = t := by
  constructor
  · intro string
    have h := tokens_partition (Nat.lt_succ_self string.length) (Nat.le_refl string.length)
    rwa [Nat.sub_self] at h
  · intro string quoteChar t rest hquote ht
    exact ⟨getNextToken_quoted string hquote ht rest, unescaped_escaped quoteChar t⟩

theorem scanner_partitions_backslash :
    unescaped (escaped (ascii '\'') (text "a\\")) = text "a\\" ∧
      getNextToken (text "'a\\\\' b") (text "'a\\\\' b") = some (⟨.string, 1, text "a\\\\"⟩, text " b") :=
  have h := scanner_partitions.2 (text "'a\\\\' b") (ascii '\'') (text "a\\") (text " b") (.inl rfl) (by decide)
  ⟨h.2, h.1⟩

/-- A single `=` is an invalid token as long as the word that it begins, and the word behind it is a token, too; what
is behind a zero byte is not scanned. -/
theorem not_apart_invalid :
    ¬ (tokensOf (text "=a")).Pairwise (fun token token' => token.offset + token.text.length ≤ token'.offset) ∧
      tokensOf (text "a " ++ 0 :: text "b") = tokensOf (text "a") := by
  decide

end Builra.Macro
