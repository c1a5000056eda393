import Builra.Macro.ConfigFileLines

namespace Builra.Macro.ConfigFile

open List

/-!
# `Macro.ConfigFileConditions` — the conditions of an assignment

What the loop of `parseConditions` collects is told by the text alone (`parseConditions_collects`), and for a text
without line ends even the characters suffice (`parseConditions_collected_iff`).
-/

/-! ## Texts without line ends -/

/-- A character below `0x80` ends no separator. -/
theorem isAtEndOfLine_append_ascii {s tail : Text} (hs : s ≠ []) (htail : currChar tail < 0x80) :
    isAtEndOfLine (s ++ tail) = isAtEndOfLine s := by
  have hne : ∀ {c : UInt8}, 0x80 ≤ c → currChar tail ≠ c := fun hc heq => by
    rw [heq] at htail
    exact absurd htail (UInt8.not_lt.mpr hc)
  have hseparator : isAtUnicodeSeparator (s ++ tail) = isAtUnicodeSeparator s := by
    cases s with
    | nil => exact absurd rfl hs
    | cons a s =>
      cases s with
      | nil =>
        have h80 : currChar tail ≠ 0x80 := hne (by decide)
        have hnext : nextChar ([a] ++ tail) = currChar tail := rfl
        have hnone : nextChar [a] ≠ 0x80 := show (0 : UInt8) ≠ 0x80 by decide
        simp only [isAtUnicodeSeparator, hnext, h80, hnone, false_and, and_false]
      | cons b s =>
        cases s with
        | nil =>
          have hA8 : currChar tail ≠ 0xA8 := hne (by decide)
          have hA9 : currChar tail ≠ 0xA9 := hne (by decide)
          have hnext : nextNextChar ([a, b] ++ tail) = currChar tail := rfl
          have hnone : ¬(nextNextChar [a, b] = 0xA8 ∨ nextNextChar [a, b] = 0xA9) :=
            show ¬((0 : UInt8) = 0xA8 ∨ (0 : UInt8) = 0xA9) by decide
          simp only [isAtUnicodeSeparator, hnext, hnone, hA8, hA9, or_self, and_false]
        | cons c s => rfl
  simp only [isAtEndOfLine, hseparator, currChar_append hs, append_eq_nil_iff, hs, false_and]

/-- What stands before an ASCII character has no line ends of its own. -/
theorem Unbroken.left {passed stop : Text} (h : Unbroken (passed ++ stop)) (hascii : currChar stop < 0x80) :
    Unbroken passed := fun s hs hne =>
  (isAtEndOfLine_append_ascii hne hascii).symm.trans (h _ (suffix_append_self_iff.mpr hs) (by simp [hne]))

section Scans

variable {p : UInt8 → Bool} {l passed stop : Text}

/-- A scan passes over a text without line ends, up to a character that it looks for. -/
theorem scanUntil_unbroken (hpassed : Unbroken passed) (hp : ∀ c ∈ passed, p c = false)
    (hstop : p (currChar stop) = true) (hascii : currChar stop < 0x80) :
    scanUntil (fun rest => isAtEndOfLine rest || p (currChar rest)) (passed ++ stop) = stop := by
  have hgo : ∀ s, s <:+ passed → s ≠ [] → (isAtEndOfLine (s ++ stop) || p (currChar (s ++ stop))) = false := by
    intro s hs hne
    rw [isAtEndOfLine_append_ascii hne hascii, hpassed s hs hne, Bool.false_or, currChar_append hne]
    obtain ⟨c, cs, rfl⟩ := exists_cons_of_ne_nil hne
    exact hp c (hs.subset mem_cons_self)
  have hend : (isAtEndOfLine stop || p (currChar stop)) = true := by rw [hstop, Bool.or_true]
  exact (Scan.scan_append_of_go hgo).trans (Scan.scan_of_stop hend)

/-- What a scan passes over, when it stops at a character that it looks for. -/
theorem unbroken_of_scanUntil
    (h : scanUntil (fun rest => isAtEndOfLine rest || p (currChar rest)) l = stop) (hend : isAtEndOfLine stop = false)
    (hascii : currChar stop < 0x80) :
    ∃ passed, l = passed ++ stop ∧ Unbroken passed ∧ ∀ c ∈ passed, p c = false := by
  subst h
  obtain ⟨passed, hpassed, hgo⟩ := Scan.scan_passed (fun rest => isAtEndOfLine rest || p (currChar rest)) l
  refine ⟨passed, hpassed, ?_, ?_⟩
  · intro s hs hne
    have h := (Bool.or_eq_false_iff.mp (hgo s hs hne)).1
    exact (isAtEndOfLine_append_ascii hne hascii).symm.trans h
  · intro c hc
    obtain ⟨before, after, rfl⟩ := append_of_mem hc
    exact (Bool.or_eq_false_iff.mp (hgo (c :: after) (suffix_append _ _) (cons_ne_nil _ _))).2

end Scans

/-! ## Conditions -/

variable {l stop : Text}

def isConditionSeparator (c : UInt8) : Bool := decide (c = ascii '=') || decide (c = ascii ']')

theorem isAtConditionSeparator_eq :
    isAtConditionSeparator = fun rest => isAtEndOfLine rest || isConditionSeparator (currChar rest) := by
  funext rest
  exact Bool.or_assoc _ _ _

theorem cons_tail_of_currChar {c : UInt8} (h : currChar l = c) (hc : Inner c) : l = c :: l.tail := by
  cases l with
  | nil => exact absurd h (hc.currChar_ne isAtEndOfLine_nil)
  | cons d ds => rw [← h]; rfl

theorem equals_of_scanUntil {stop : Text} (h : scanUntil isAtConditionSeparator l = stop)
    (hend : ¬isAtEndOfLine stop = true) (hbracket : currChar stop ≠ ascii ']') : currChar stop = ascii '=' := by
  rcases Scan.scan_stops isAtConditionSeparator l with hnil | hstop
  · exact absurd (by rw [← h, scanUntil, hnil]; exact isAtEndOfLine_nil) hend
  · rw [show Scan.scan isAtConditionSeparator l = stop from h] at hstop
    simp only [isAtConditionSeparator, Bool.or_eq_true, decide_eq_true_eq] at hstop
    exact (hstop.resolve_right hbracket).resolve_left hend

theorem closed_of_scanUntil (h : scanUntil isAtConditionEnd l = stop) (hend : ¬isAtEndOfLine stop = true) :
    currChar stop = ascii ']' := by
  rcases Scan.scan_stops isAtConditionEnd l with hnil | hstop
  · exact absurd (by rw [← h, scanUntil, hnil]; exact isAtEndOfLine_nil) hend
  · rw [show Scan.scan isAtConditionEnd l = stop from h] at hstop
    simp only [isAtConditionEnd, Bool.or_eq_true, decide_eq_true_eq] at hstop
    exact hstop.resolve_left hend

/-- The name of a parameter in a condition, which may be empty. -/
def IsParam (param : Text) : Prop := Unbroken param ∧ ∀ c ∈ param, isConditionSeparator c = false

/-- The pattern in a condition. -/
def IsPattern (pattern : Text) : Prop := Unbroken pattern ∧ ascii ']' ∉ pattern

/-- The conditions of an assignment, as the texts before and after them: each is a parameter, an equals sign and a
pattern in brackets, and whitespace and comments may follow it. -/
inductive Conditions : Text → Text → Prop
  | none {rest} (h : currChar rest ≠ ascii '[') : Conditions rest rest
  | more {param pattern rest after} (hparam : ∀ c ∈ param, c ≠ ascii '=' ∧ c ≠ ascii ']')
      (hpattern : ∀ c ∈ pattern, c ≠ ascii ']') (h : Conditions (skipWhitespaceAndComments rest) after) :
      Conditions (ascii '[' :: (param ++ ascii '=' :: (pattern ++ ascii ']' :: rest))) after

/-- The conditions of an assignment, from the text before them to the text after them. -/
inductive Collects : Text → List (Text × Text) → Text → Prop
  | none {rest} (h : currChar rest ≠ ascii '[') : Collects rest [] rest
  | more {param pattern rest after conditions} (hparam : IsParam param)
      (hpattern : IsPattern pattern) (h : Collects (skipWhitespaceAndComments rest) conditions after) :
      Collects (ascii '[' :: (param ++ ascii '=' :: (pattern ++ ascii ']' :: rest))) ((param, pattern) :: conditions)
        after

variable {after : Text} {conditions' conditions : List (Text × Text)}

theorem scanUntil_param {param : Text} (hparam : IsParam param) :
    scanUntil isAtConditionSeparator (param ++ ascii '=' :: rest) = ascii '=' :: rest := by
  rw [isAtConditionSeparator_eq]
  exact scanUntil_unbroken hparam.1 hparam.2 rfl (show ascii '=' < 0x80 by decide)

theorem scanUntil_pattern {pattern : Text} (hpattern : IsPattern pattern) :
    scanUntil isAtConditionEnd (pattern ++ ascii ']' :: rest) = ascii ']' :: rest := by
  apply scanUntil_unbroken (p := fun c => decide (c = ascii ']')) hpattern.1
  · intro c hc
    exact decide_eq_false fun heq => hpattern.2 (heq ▸ hc)
  · rfl
  · exact show ascii ']' < 0x80 by decide

theorem param_of_scanUntil {l stop : Text} (h : scanUntil isAtConditionSeparator l = stop)
    (hend : ¬isAtEndOfLine stop = true) (hbracket : currChar stop ≠ ascii ']') :
    ∃ param, l = param ++ ascii '=' :: stop.tail ∧ IsParam param := by
  have hequals := equals_of_scanUntil h hend hbracket
  rw [isAtConditionSeparator_eq] at h
  obtain ⟨param, hparam, hunbroken, hchars⟩ := unbroken_of_scanUntil h (by simpa using hend) (by rw [hequals]; decide)
  rw [cons_tail_of_currChar hequals (by decide)] at hparam
  exact ⟨param, hparam, hunbroken, hchars⟩

theorem pattern_of_scanUntil {stop : Text} (h : scanUntil isAtConditionEnd l = stop)
    (hend : ¬isAtEndOfLine stop = true) : ∃ pattern, l = pattern ++ ascii ']' :: stop.tail ∧ IsPattern pattern := by
  have hclosed := closed_of_scanUntil h hend
  obtain ⟨pattern, hpattern, hunbroken, hchars⟩ := unbroken_of_scanUntil (p := fun c => decide (c = ascii ']')) h
    (by simpa using hend) (by rw [hclosed]; decide)
  rw [cons_tail_of_currChar hclosed (by decide)] at hpattern
  refine ⟨pattern, hpattern, hunbroken, fun hmem => ?_⟩
  exact of_decide_eq_false (hchars _ hmem) rfl

/-- The loop over the conditions collects what is there to be collected. -/
theorem parseConditions_collects (lineNumber fuel : Nat) (conditions : List (Text × Text)) (hfuel : l.length < fuel) :
    parseConditions lineNumber fuel conditions l = .ok (.collected conditions' after)
      ↔ ∃ more, conditions' = conditions ++ more ∧ Collects l more after := by
  induction fuel generalizing conditions l with
  | zero => exact absurd hfuel (Nat.not_lt_zero _)
  | succ fuel ih =>
    rw [parseConditions_succ]
    dsimp only
    by_cases hopen : currChar l = ascii '['
    · have hcons : l = ascii '[' :: l.tail := cons_tail_of_currChar hopen (by decide)
      have hlen : l.length = l.tail.length + 1 := by rw [hcons]; rfl
      rw [if_neg (not_not.mpr hopen)]
      constructor
      · intro h
        generalize hparamStop : scanUntil isAtConditionSeparator l.tail = paramStop at h
        generalize hpatternStop : scanUntil isAtConditionEnd paramStop.tail = patternStop at h
        split at h
        · cases h
        · rename_i hparamEnd
          split at h
          · cases h
          · rename_i hbracket
            split at h
            · cases h
            · rename_i hpatternEnd
              obtain ⟨param, hl, hparam⟩ := param_of_scanUntil hparamStop hparamEnd hbracket
              obtain ⟨pattern, hrest, hpattern⟩ := pattern_of_scanUntil hpatternStop hpatternEnd
              rw [hrest] at hl
              have hle := (skipWhitespaceAndComments_suffix patternStop.tail).length_le
              have hlength : patternStop.tail.length < l.tail.length := by
                rw [hl]
                simp only [length_append, length_cons]
                omega
              obtain ⟨more, rfl, hmore⟩ := (ih _ (by omega)).mp h
              refine ⟨(param, pattern) :: more, ?_, ?_⟩
              · have hparamSlice : slice l.tail paramStop = param := by
                  rw [hl, cons_tail_of_currChar (equals_of_scanUntil hparamStop hparamEnd hbracket) (by decide), hrest]
                  exact slice_of_append _ _
                have hpatternSlice : slice paramStop.tail patternStop = pattern := by
                  rw [hrest]
                  nth_rewrite 2 [cons_tail_of_currChar (closed_of_scanUntil hpatternStop hpatternEnd) (by decide)]
                  exact slice_of_append _ _
                rw [hparamSlice, hpatternSlice, append_assoc]
                rfl
              · rw [hcons, hl]
                exact .more hparam hpattern hmore
      · rintro ⟨more, rfl, h⟩
        cases h with
        | none h => exact absurd hopen h
        | @more param pattern rest after conditions' hparam hpattern hrest =>
          have hskip : skipWhitespaceAndComments rest <:+ rest := skipWhitespaceAndComments_suffix rest
          have hle := hskip.length_le
          have hequals : isAtEndOfLine (ascii '=' :: (pattern ++ ascii ']' :: rest)) = false := rfl
          have hclosed : isAtEndOfLine (ascii ']' :: rest) = false := rfl
          rw [tail_cons, scanUntil_param hparam, tail_cons, scanUntil_pattern hpattern, hequals, hclosed,
            slice_of_append, slice_of_append]
          refine (ih _ ?_).mpr ⟨conditions', by rw [append_assoc]; rfl, hrest⟩
          simp only [length_cons, length_append] at hfuel
          show (skipWhitespaceAndComments rest).length < fuel
          omega
    · rw [if_pos hopen]
      constructor
      · intro h
        cases h
        exact ⟨[], (append_nil _).symm, .none hopen⟩
      · rintro ⟨more, rfl, h⟩
        cases h with
        | none h => rw [append_nil]
        | more => exact absurd rfl hopen

/-- In a text without line ends, parameters and patterns are told by their characters. -/
theorem conditions_iff (hl : Unbroken l) : Conditions l after ↔ ∃ conditions, Collects l conditions after := by
  constructor
  · intro h
    induction h with
    | none h => exact ⟨[], .none h⟩
    | @more param pattern rest after hparam hpattern _ ih =>
      have hequals : Unbroken (param ++ ascii '=' :: (pattern ++ ascii ']' :: rest)) := hl.tail
      have hclosed : Unbroken (pattern ++ ascii ']' :: rest) :=
        hequals.suffix ((suffix_cons _ _).trans (suffix_append param _))
      have hrest : Unbroken rest := hclosed.suffix ((suffix_cons _ _).trans (suffix_append pattern _))
      obtain ⟨conditions, hmore⟩ := ih (hrest.suffix (skipWhitespaceAndComments_suffix rest))
      refine ⟨_, .more ⟨hequals.left (show ascii '=' < 0x80 by decide), fun c hc => ?_⟩
        ⟨hclosed.left (show ascii ']' < 0x80 by decide), fun hc => hpattern _ hc rfl⟩ hmore⟩
      simp only [isConditionSeparator, (hparam c hc).1, (hparam c hc).2, decide_false, Bool.or_self]
  · rintro ⟨conditions, h⟩
    induction h with
    | none h => exact .none h
    | @more param pattern rest after conditions hparam hpattern _ ih =>
      have hrest : rest <:+ ascii '[' :: (param ++ ascii '=' :: (pattern ++ ascii ']' :: rest)) :=
        (suffix_cons _ _).trans ((suffix_append pattern _).trans ((suffix_cons _ _).trans
          ((suffix_append param _).trans (suffix_cons _ _))))
      refine .more (fun c hc => ?_) (fun c hc heq => hpattern.2 (heq ▸ hc))
        (ih (hl.suffix ((skipWhitespaceAndComments_suffix rest).trans hrest)))
      simpa only [isConditionSeparator, Bool.or_eq_false_iff, decide_eq_false_iff_not] using hparam.2 c hc

/-- The loop over the conditions reads them all if and only if they are there to be read. -/
theorem parseConditions_collected_iff (lineNumber fuel : Nat) (conditions : List (Text × Text)) (hl : Unbroken l)
    (hfuel : l.length < fuel) :
    (∃ conditions', parseConditions lineNumber fuel conditions l = .ok (.collected conditions' after))
      ↔ Conditions l after := by
  simp only [parseConditions_collects lineNumber fuel conditions hfuel]
  rw [conditions_iff hl]
  constructor
  · rintro ⟨conditions', more, -, h⟩
    exact ⟨more, h⟩
  · rintro ⟨more, h⟩
    exact ⟨_, more, rfl, h⟩

end Builra.Macro.ConfigFile
