import Builra.Macro.ConfigFileLocality
import Builra.Macro.TableSerialization

namespace Builra.Macro.ConfigFile

open List Nat

/-!
# `Macro.ConfigFileContract` — what the delegate of a configuration file is promised

The delegate's protocol promises that names are not empty. A turn of the loop makes the calls of one line, and which
these are is told by what the line is: an assignment (`Assigns`), an inclusion (`Includes`) or neither (`TurnCalls`).
A promise about every call of a run is then one about every line that the loop comes to (`Reaches`).
-/

/-! ## Assignments -/

variable {rest l after name : Text} {conditions' conditions : List (Text × Text)}

theorem Collects.unique {after' : Text} (h : Collects l conditions after) (h' : Collects l conditions' after') :
    conditions = conditions' ∧ after = after' := by
  have heq := (parseConditions_collects 0 _ [] (lt_succ_self _)).mpr ⟨conditions, rfl, h⟩
  have heq' := (parseConditions_collects 0 _ [] (lt_succ_self _)).mpr ⟨conditions', rfl, h'⟩
  rw [heq] at heq'
  injection heq' with heq'
  injection heq' with hconditions hafter
  exact ⟨hconditions, hafter⟩

/-- The text begins with an assignment: a name, its conditions and an equals sign, with whitespace and comments
between them. -/
def Assigns (rest name : Text) (conditions : List (Text × Text)) : Prop :=
  let line := skipWhitespaceAndComments rest
  isValidMacroName1stChar (currChar line) = true ∧ name = slice line (nameEnd line) ∧
    ∃ value, Collects (skipWhitespaceAndComments (nameEnd line)) conditions (ascii '=' :: value)

theorem Assigns.unique {name' : Text} (h : Assigns rest name conditions) (h' : Assigns rest name' conditions') :
    name = name' ∧ conditions = conditions' := by
  obtain ⟨-, rfl, value, hcollects⟩ := h
  obtain ⟨-, rfl, value', hcollects'⟩ := h'
  exact ⟨rfl, (hcollects.unique hcollects').1⟩

theorem Assigns.name_ne_nil (h : Assigns rest name conditions) :
    name ≠ [] := by
  obtain ⟨hname, rfl, -⟩ := h
  generalize skipWhitespaceAndComments rest = line at hname
  cases line with
  | nil => cases hname
  | cons c cs =>
    have hle : (nameEnd (c :: cs)).length ≤ cs.length := Scan.scan_length_le _ cs
    intro hnil
    have hlength := congrArg List.length hnil
    rw [slice, length_take, length_cons, length_nil] at hlength
    omega

/-! ## Inclusions -/

/-- The text begins with an inclusion: a hash mark, the keyword, a file name in quotes and the end of the line, with
whitespace and comments between them. -/
def Includes (rest fileName : Text) : Prop :=
  let line := skipWhitespaceAndComments rest
  currChar line = ascii '#' ∧ isIncludeKeyword (slice (keywordStart line) (keywordEnd line)) = true ∧
    ∃ after, skipWhitespaceAndComments (keywordEnd line) = ascii '"' :: (fileName ++ ascii '"' :: after) ∧
      Unbroken fileName ∧ ascii '"' ∉ fileName ∧ isAtEndOfLine (skipWhitespaceAndComments after) = true

/-- A quoted string, where there is one. -/
theorem parseQuotedString_eq_some (lineNumber : Nat) {fileName : Text} {calls : List DelegateCall} :
    parseQuotedString lineNumber l = (some fileName, calls, after)
      ↔ calls = [] ∧ l = ascii '"' :: (fileName ++ ascii '"' :: after) ∧ Unbroken fileName ∧ ascii '"' ∉ fileName := by
  have hquote : Inner (ascii '"') := by decide
  unfold parseQuotedString
  constructor
  · intro h
    split at h
    · rename_i hopen
      dsimp only at h
      generalize hstop : scanUntil (fun rest => isAtEndOfLine rest || currChar rest = ascii '"') l.tail = stop at h
      split at h
      · rename_i hclosed
        simp only [Prod.mk.injEq, Option.some.injEq] at h
        obtain ⟨rfl, rfl, rfl⟩ := h
        have hend : isAtEndOfLine stop = false := by
          by_contra hend
          exact hquote.currChar_ne (by simpa using hend) hclosed
        obtain ⟨passed, hl, hunbroken, hchars⟩ := unbroken_of_scanUntil (p := fun c => decide (c = ascii '"')) hstop hend
          (by rw [hclosed]; decide)
        have hslice : slice l.tail stop = passed := by
          rw [hl]
          exact slice_of_append _ _
        rw [hslice]
        refine ⟨rfl, ?_, hunbroken, fun hmem => of_decide_eq_false (hchars _ hmem) rfl⟩
        rw [← cons_tail_of_currChar hclosed hquote, ← hl]
        exact cons_tail_of_currChar hopen hquote
      · cases h
    · cases h
  · rintro ⟨rfl, rfl, hunbroken, hquotes⟩
    have hopen : currChar (ascii '"' :: (fileName ++ ascii '"' :: after)) = ascii '"' := rfl
    have hscan : scanUntil (fun rest => isAtEndOfLine rest || currChar rest = ascii '"') (fileName ++ ascii '"' :: after)
        = ascii '"' :: after := by
      apply scanUntil_unbroken (p := fun c => decide (c = ascii '"')) hunbroken
      · intro c hc
        exact decide_eq_false fun heq => hquotes (heq ▸ hc)
      · rfl
      · exact show ascii '"' < 0x80 by decide
    rw [if_pos hopen]
    dsimp only
    rw [tail_cons, hscan, slice_of_append]
    rfl

theorem Includes.unique {fileName fileName' : Text} (h : Includes rest fileName) (h' : Includes rest fileName') :
    fileName = fileName' := by
  obtain ⟨-, -, after, hquoted, hunbroken, hquotes, -⟩ := h
  obtain ⟨-, -, after', hquoted', hunbroken', hquotes', -⟩ := h'
  have heq := (parseQuotedString_eq_some 0).mpr ⟨rfl, hquoted, hunbroken, hquotes⟩
  have heq' := (parseQuotedString_eq_some 0).mpr ⟨rfl, hquoted', hunbroken', hquotes'⟩
  rw [heq] at heq'
  exact Option.some.inj (congrArg Prod.fst heq')

/-! ## The calls of a turn -/

/-- What the calls of a turn are. An inclusion may be followed by the run of the parser that the delegate answered
with. -/
inductive TurnCalls (rest : Text) : List DelegateCall → Prop
  | assignment {name : Text} {conditions : List (Text × Text)} {value path : Text}
      {startLine endLine startColumn endColumn : Nat} : Assigns rest name conditions →
      TurnCalls rest [.foundMacroValueAssignment name conditions value path startLine endLine startColumn endColumn]
  | inclusion {fileName : Text} {optional : Bool} {more : List DelegateCall} : Includes rest fileName →
      (∀ call ∈ more, call = .parseSubparser ∨ call = .endPreprocessorInclusion) →
      TurnCalls rest (.foundPreprocessorInclusion fileName optional :: more)
  | diagnostics {calls : List DelegateCall} : (∀ name conditions, ¬Assigns rest name conditions) →
      (∀ fileName, ¬Includes rest fileName) → (∀ call ∈ calls, ∃ diagnostic, call = .handleDiagnostic diagnostic) →
      TurnCalls rest calls

section Turns

variable (answers : Nat → Bool) (endsInBackslash : Text → Bool) (trimmed : Text → Text) (path : Text)

variable {rest : Text} {s : State} {calls : List DelegateCall}

theorem not_includes_of_name (h : isValidMacroName1stChar (currChar (skipWhitespaceAndComments rest)) = true)
    (fileName : Text) : ¬Includes rest fileName := by
  rintro ⟨hhash, -⟩
  rw [hhash] at h
  cases h

theorem not_assigns_of_hash (h : currChar (skipWhitespaceAndComments rest) = ascii '#') (name : Text)
    (conditions : List (Text × Text)) : ¬Assigns rest name conditions := by
  rintro ⟨hname, -⟩
  rw [h] at hname
  cases hname

theorem currChar_of_isIncludeKeyword {mark stop : Text} (h : isIncludeKeyword (slice mark stop) = true) :
    currChar mark = ascii 'i' := by
  have hcut : mark = slice mark stop ++ mark.drop (mark.length - stop.length) := (take_append_drop _ _).symm
  rw [hcut]
  rcases of_decide_eq_true h with h | h
  · rw [h]
    rfl
  · rw [h]
    rfl

/-- The calls of an inclusion, from after its keyword. -/
theorem parseInclude_calls (includeIsOptional : Bool) (s : State) :
    (∃ fileName after, skipWhitespaceAndComments s.rest = ascii '"' :: (fileName ++ ascii '"' :: after) ∧
        Unbroken fileName ∧ ascii '"' ∉ fileName ∧ isAtEndOfLine (skipWhitespaceAndComments after) = true ∧
        ∃ more, (parseInclude answers includeIsOptional s).1
          = .foundPreprocessorInclusion fileName includeIsOptional :: more ∧
          ∀ call ∈ more, call = .parseSubparser ∨ call = .endPreprocessorInclusion) ∨
      ((∀ fileName after, skipWhitespaceAndComments s.rest = ascii '"' :: (fileName ++ ascii '"' :: after) →
          Unbroken fileName → ascii '"' ∉ fileName → isAtEndOfLine (skipWhitespaceAndComments after) = false) ∧
        ∃ diagnostic, (parseInclude answers includeIsOptional s).1 = [.handleDiagnostic diagnostic]) := by
  unfold parseInclude
  rcases hquoted : parseQuotedString s.currLine (skipWhitespaceAndComments s.rest) with ⟨fileName, calls, after⟩
  cases fileName with
  | none =>
    refine .inr ⟨fun fileName after' hquote hunbroken hquotes => ?_, ?_⟩
    · have hsome := (parseQuotedString_eq_some s.currLine).mpr ⟨rfl, hquote, hunbroken, hquotes⟩
      rw [hsome] at hquoted
      cases hquoted
    · show ∃ diagnostic, calls = [.handleDiagnostic diagnostic]
      unfold parseQuotedString at hquoted
      split at hquoted
      · dsimp only at hquoted
        split at hquoted
        · cases hquoted
        · cases hquoted
          exact ⟨_, rfl⟩
      · cases hquoted
        exact ⟨_, rfl⟩
  | some fileName =>
    obtain ⟨rfl, hquote, hunbroken, hquotes⟩ := (parseQuotedString_eq_some _).mp hquoted
    cases hend : isAtEndOfLine (skipWhitespaceAndComments after) with
    | true =>
      refine .inl ⟨fileName, after, hquote, hunbroken, hquotes, hend, ?_⟩
      dsimp only
      rw [if_pos hend, includeFile]
      dsimp only
      split
      · exact ⟨_, rfl, by simp⟩
      · exact ⟨_, rfl, by simp⟩
    | false =>
      refine .inr ⟨fun fileName' after' hquote' hunbroken' hquotes' => ?_, ?_⟩
      · have hsome := (parseQuotedString_eq_some s.currLine).mpr ⟨rfl, hquote', hunbroken', hquotes'⟩
        rw [hquoted] at hsome
        obtain rfl : after = after' := congrArg (fun r => r.2.2) hsome
        exact hend
      · dsimp only
        rw [if_neg (by rw [hend]; exact Bool.false_ne_true)]
        exact ⟨_, rfl⟩

theorem parseDirective_turnCalls (hline : s.rest = skipWhitespaceAndComments rest)
    (hhash : currChar s.rest = ascii '#') : TurnCalls rest (parseDirective answers s).1 := by
  have hassigns : ∀ name conditions, ¬Assigns rest name conditions := not_assigns_of_hash (hline ▸ hhash)
  have hone : ∀ {diagnostic : MacroConfigFileDiagnostic}, (∀ fileName, ¬Includes rest fileName) →
      TurnCalls rest [.handleDiagnostic diagnostic] := by
    intro diagnostic hincludes
    refine .diagnostics hassigns hincludes fun call hcall => ?_
    rw [mem_singleton] at hcall
    exact ⟨_, hcall⟩
  unfold parseDirective
  dsimp only
  split
  · rename_i hend
    apply hone
    rintro fileName ⟨-, hinclude, -⟩
    rw [← hline] at hinclude
    exact Inner.currChar_ne (by decide) hend (currChar_of_isIncludeKeyword hinclude)
  · split
    · rename_i hkeyword
      rcases parseInclude_calls answers (decide (slice (keywordStart s.rest) (keywordEnd s.rest) = text "include?"))
        (s.moveTo (keywordEnd s.rest)) with ⟨fileName, after, hquote, hunbroken, hquotes, hend, more, hcalls, hmore⟩ |
        ⟨hno, diagnostic, hcalls⟩
      · rw [hcalls]
        refine .inclusion ⟨?_, ?_, after, ?_, hunbroken, hquotes, hend⟩ hmore
        · rwa [← hline]
        · rwa [← hline]
        · rw [← hline]
          exact hquote
      · rw [hcalls]
        apply hone
        rintro fileName ⟨-, -, after, hquote, hunbroken, hquotes, hend⟩
        rw [← hline] at hquote
        rw [hno fileName after hquote hunbroken hquotes] at hend
        cases hend
    · rename_i hkeyword
      apply hone
      rintro fileName ⟨-, hinclude, -⟩
      rw [← hline] at hinclude
      exact hkeyword hinclude

theorem parseMacroValueAssignment_turnCalls (hline : s.rest = skipWhitespaceAndComments rest)
    (hname : isValidMacroName1stChar (currChar s.rest) = true) {s' : State}
    (h : parseMacroValueAssignment endsInBackslash trimmed path s = .ok (calls, s')) : TurnCalls rest calls := by
  have hincludes : ∀ fileName, ¬Includes rest fileName := not_includes_of_name (hline ▸ hname)
  have hone : ∀ {diagnostic : MacroConfigFileDiagnostic}, (∀ name conditions, ¬Assigns rest name conditions) →
      TurnCalls rest [.handleDiagnostic diagnostic] := by
    intro diagnostic hassigns
    refine .diagnostics hassigns hincludes fun call hcall => ?_
    rw [mem_singleton] at hcall
    exact ⟨_, hcall⟩
  have hskip : skipWhitespaceAndComments s.rest = s.rest := by
    rw [hline]
    exact skipWhitespaceAndComments_idem rest
  rw [parseMacroValueAssignment_eq endsInBackslash trimmed path hskip hname] at h
  obtain ⟨r, hr, -⟩ := parseConditions_total s.currLine _ [] (skipWhitespaceAndComments (nameEnd s.rest))
    (lt_succ_self _)
  rw [hr] at h
  cases r with
  | failed message after =>
    cases h
    apply hone
    rintro name conditions ⟨-, -, value, hcollects⟩
    rw [← hline] at hcollects
    have hok := (parseConditions_collects s.currLine _ [] (lt_succ_self _)).mpr ⟨conditions, rfl, hcollects⟩
    rw [hr] at hok
    cases hok
  | collected conditions after =>
    obtain ⟨more, heq, hcollects⟩ := (parseConditions_collects s.currLine _ [] (lt_succ_self _)).mp hr
    obtain rfl : conditions = more := heq
    change parseValue endsInBackslash trimmed path s.rest (slice s.rest (nameEnd s.rest)) conditions (s.moveTo after)
      = .ok (calls, s') at h
    unfold parseValue at h
    split at h
    · rename_i hequals
      cases h
      apply hone
      rintro name conditions' ⟨-, -, value, hcollects'⟩
      rw [← hline] at hcollects'
      obtain ⟨-, hafter⟩ := hcollects.unique hcollects'
      exact hequals (congrArg currChar hafter)
    · rename_i hequals
      have hvalue : after = ascii '=' :: after.tail := cons_tail_of_currChar (not_not.mp hequals) (by decide)
      rw [assert, if_pos (not_not.mp hequals)] at h
      dsimp only [bind, Except.bind] at h
      split at h
      · cases h
      · cases h
        refine .assignment ⟨?_, ?_, after.tail, ?_⟩
        · rwa [← hline]
        · rw [← hline]
        · rwa [← hline, ← hvalue]

/-- The calls of a turn are those of its line. -/
theorem parseLine_turnCalls {s' : State} (h : parseLine answers endsInBackslash trimmed path s = .ok (calls, s')) :
    TurnCalls s.rest calls := by
  -- at any other character the line is neither
  have hneither : currChar (skipWhitespaceAndComments s.rest) ≠ ascii '#' →
      isValidMacroName1stChar (currChar (skipWhitespaceAndComments s.rest)) ≠ true →
      (∀ call ∈ calls, ∃ diagnostic, call = .handleDiagnostic diagnostic) → TurnCalls s.rest calls :=
    fun hhash hname hcalls => .diagnostics (fun _ _ h => hname h.1) (fun _ h => hhash h.1) hcalls
  unfold parseLine at h
  dsimp only at h
  split at h
  · rename_i hend
    cases h
    apply hneither
    · exact Inner.currChar_ne (by decide) hend
    · intro hname
      rcases currChar_of_isAtEndOfLine hend with h' | h' | h' | h' <;>
      · rw [h'] at hname
        cases hname
    · exact fun call hcall => absurd hcall not_mem_nil
  · split at h
    · rename_i hhash
      rw [parsePreprocessorDirective_eq answers (skipWhitespaceAndComments_idem s.rest) hhash] at h
      have hcalls := parseDirective_turnCalls answers (s := s.moveTo (skipWhitespaceAndComments s.rest)) rfl hhash
      rw [Except.ok.inj h] at hcalls
      exact hcalls
    · rename_i hhash
      split at h
      · rename_i hname
        exact parseMacroValueAssignment_turnCalls endsInBackslash trimmed path
          (s := s.moveTo (skipWhitespaceAndComments s.rest)) rfl hname h
      · rename_i hname
        apply hneither hhash hname
        split at h
        · cases h
          intro call hcall
          rw [mem_singleton] at hcall
          exact ⟨_, hcall⟩
        · cases h
          exact fun call hcall => absurd hcall not_mem_nil

/-! ## Runs -/

/-- The loop of `parse` comes from one state to another. -/
inductive Reaches : State → State → Prop
  | refl {s : State} : Reaches s s
  | turn {s s' s'' : State} {calls : List DelegateCall} : s.rest ≠ [] →
      parseLine answers endsInBackslash trimmed path s = .ok (calls, s') → Reaches (scanEOL s') s'' → Reaches s s''

variable {answers endsInBackslash trimmed path}

/-- What holds of every call of a run, by what holds of every line. -/
theorem parseLoop_forall {P : DelegateCall → Prop} {Q : Text → Prop} (hnil : Q [])
    (hturn : ∀ {rest : Text} {calls : List DelegateCall}, TurnCalls rest calls → ((∀ call ∈ calls, P call) ↔ Q rest))
    {fuel : Nat} {s' : State} (h : parseLoop answers endsInBackslash trimmed path fuel s = .ok (calls, s')) :
    (∀ call ∈ calls, P call) ↔ ∀ s'', Reaches answers endsInBackslash trimmed path s s'' → Q s''.rest := by
  induction fuel generalizing s calls with
  | zero => cases h
  | succ fuel ih =>
    by_cases hrest : s.rest = []
    · rw [parseLoop, if_pos hrest] at h
      cases h
      refine iff_of_true (fun _ hcall => absurd hcall not_mem_nil) ?_
      intro s'' hreaches
      cases hreaches with
      | refl => rwa [hrest]
      | turn hne => exact absurd hrest hne
    · obtain ⟨first, s₁, hfirst, -⟩ := parseLine_ends answers endsInBackslash trimmed path s
      obtain ⟨more, hmore, rfl⟩ := parseLoop_turn answers endsInBackslash trimmed path hrest hfirst h
      rw [forall_mem_append, hturn (parseLine_turnCalls answers endsInBackslash trimmed path hfirst), ih hmore]
      constructor
      · rintro ⟨hline, hlines⟩ s'' hreaches
        cases hreaches with
        | refl => exact hline
        | turn _ hnext hreaches =>
          rw [hfirst] at hnext
          cases hnext
          exact hlines s'' hreaches
      · intro hlines
        exact ⟨hlines s .refl, fun s'' hreaches => hlines s'' (.turn hrest hfirst hreaches)⟩

variable (answers endsInBackslash trimmed path) in
/-- A parse is a run of the loop from the beginning of the text. -/
theorem parse_eq_loop (requests : Nat) (bytes : Text) :
    ∃ calls s, parse answers endsInBackslash trimmed path requests bytes = .ok (calls, s) ∧
      parseLoop answers endsInBackslash trimmed path (bytes.length + 1) ⟨bytes, 1, requests⟩ = .ok (calls, s) := by
  obtain ⟨calls, s, h, hrest⟩ :=
    parseLoop_total answers endsInBackslash trimmed path (bytes.length + 1) ⟨bytes, 1, requests⟩ (lt_succ_self _)
  refine ⟨calls, s, ?_, h⟩
  simp only [parse, h, bind, Except.bind, assert, hrest, if_true]

end Turns

/-! ## The promise -/

/-- What the delegate's protocol guarantees. -/
def DelegateCall.Guaranteed : DelegateCall → Prop
  | .foundPreprocessorInclusion fileName _ => fileName ≠ []
  | .foundMacroValueAssignment macroName conditions _ _ _ _ _ _ =>
    macroName ≠ [] ∧ ∀ condition ∈ conditions, condition.1 ≠ []
  | _ => True

/-- The line includes no file without a name and assigns under no parameter without a name. -/
def Named (rest : Text) : Prop :=
  ¬Includes rest [] ∧ ∀ name conditions, Assigns rest name conditions → ∀ condition ∈ conditions, condition.1 ≠ []

theorem not_assigns_nil (name : Text) (conditions : List (Text × Text)) : ¬Assigns [] name conditions := by
  rintro ⟨hname, -⟩
  cases hname

theorem named_nil : Named [] := by
  refine ⟨?_, fun name conditions h => absurd h (not_assigns_nil name conditions)⟩
  rintro ⟨hhash, -⟩
  cases hhash

/-- An assignment is no inclusion. -/
theorem Assigns.not_includes (h : Assigns rest name conditions) (fileName : Text) : ¬Includes rest fileName :=
  not_includes_of_name h.1 fileName

theorem TurnCalls.guaranteed_iff {calls : List DelegateCall} (h : TurnCalls rest calls) :
    (∀ call ∈ calls, call.Guaranteed) ↔ Named rest := by
  cases h with
  | @assignment name conditions _ _ _ _ _ _ hassigns =>
    rw [forall_mem_singleton]
    constructor
    · rintro ⟨-, hparams⟩
      refine ⟨hassigns.not_includes [], fun name' conditions' hassigns' => ?_⟩
      obtain ⟨-, rfl⟩ := hassigns.unique hassigns'
      exact hparams
    · intro hnamed
      exact ⟨hassigns.name_ne_nil, hnamed.2 name conditions hassigns⟩
  | @inclusion fileName _ more hincludes hmore =>
    have hmore' : ∀ call ∈ more, call.Guaranteed := by
      intro call hcall
      rcases hmore call hcall with rfl | rfl <;> trivial
    rw [forall_mem_cons, and_iff_left hmore']
    constructor
    · intro hfile
      refine ⟨?_, fun name conditions hassigns => absurd hincludes (hassigns.not_includes fileName)⟩
      intro hempty
      exact hfile (hincludes.unique hempty)
    · rintro ⟨hempty, -⟩ rfl
      exact hempty hincludes
  | diagnostics hassigns hincludes hcalls =>
    refine iff_of_true ?_ ⟨hincludes [], fun name conditions h => absurd h (hassigns name conditions)⟩
    intro call hcall
    obtain ⟨diagnostic, rfl⟩ := hcalls call hcall
    trivial

/-! ## Declaring the parameters -/

/-- `declareConditionParameter`. -/
def declareConditionParameter (fns : MatchFunctions) (name : Text) (ns : Serialization.DelegateNamespace) :
    Except Violation (MacroConditionParameter × Serialization.DelegateNamespace) := do
  precondition (name ≠ [])
  match ns.lookupConditionParameter fns name with
  | some parameter => .ok (parameter, ns)
  | none =>
    let parameter : MacroConditionParameter := ⟨ns.nextIdentity, name⟩
    .ok (parameter, { ns with
      conditionParameters := parameter :: ns.conditionParameters
      nextIdentity := ns.nextIdentity + 1 })

/-- The conditions of a condition set, each with its parameter declared. -/
def declareConditions (fns : MatchFunctions) :
    List (Text × Text) → Serialization.DelegateNamespace → Except Violation (List MacroCondition × Serialization.DelegateNamespace)
  | [], ns => .ok ([], ns)
  | (param, pattern) :: conditions, ns => do
    let (parameter, ns) ← declareConditionParameter fns param ns
    let (declared, ns) ← declareConditions fns conditions ns
    .ok (⟨parameter, pattern⟩ :: declared, ns)

theorem declareConditionParameter_ok (fns : MatchFunctions) (h : name ≠ []) (ns : Serialization.DelegateNamespace) :
    ∃ r, declareConditionParameter fns name ns = .ok r := by
  unfold declareConditionParameter
  rw [precondition, if_pos h]
  cases hlookup : ns.lookupConditionParameter fns name with
  | none => exact ⟨_, rfl⟩
  | some parameter => exact ⟨_, rfl⟩

theorem declareConditions_ok_iff (fns : MatchFunctions) (conditions : List (Text × Text)) (ns : Serialization.DelegateNamespace) :
    (∃ r, declareConditions fns conditions ns = .ok r) ↔ ∀ condition ∈ conditions, condition.1 ≠ [] := by
  induction conditions generalizing ns with
  | nil => exact iff_of_true ⟨_, rfl⟩ fun _ h => absurd h not_mem_nil
  | cons condition conditions ih =>
    obtain ⟨param, pattern⟩ := condition
    rw [forall_mem_cons]
    by_cases hparam : param = []
    · subst hparam
      refine iff_of_false ?_ fun h => h.1 rfl
      rintro ⟨r, hr⟩
      cases hr
    · obtain ⟨⟨parameter, ns'⟩, hdeclared⟩ := declareConditionParameter_ok fns hparam ns
      rw [and_iff_right hparam, ← ih ns', declareConditions, hdeclared]
      dsimp only [bind, Except.bind]
      constructor
      · rintro ⟨r, hr⟩
        split at hr
        · cases hr
        · exact ⟨_, ‹_›⟩
      · rintro ⟨⟨declared, ns''⟩, hr⟩
        rw [hr]
        exact ⟨_, rfl⟩

/-! ## Keys -/

/-- The fields of the delegate for a single name. -/
structure SingleMacroNameDelegate where
  macroName : Option Text
  conditions : Option (List (Text × Text))

def SingleMacroNameDelegate.handle (delegate : SingleMacroNameDelegate) : DelegateCall → SingleMacroNameDelegate
  | .foundMacroValueAssignment macroName conditions _ _ _ _ _ _ =>
    ⟨some macroName, if conditions = [] then none else some conditions⟩
  | _ => delegate

/-- `parseMacroNameAndConditionSet`. Its delegate includes no file. -/
def parseMacroNameAndConditionSet (endsInBackslash : Text → Bool) (trimmed : Text → Text) (string : Text) :
    Option Text × Option (List (Text × Text)) :=
  match parse (fun _ => false) endsInBackslash trimmed [] 0 (string ++ text "=") with
  | .ok (calls, _) =>
    let delegate := calls.foldl SingleMacroNameDelegate.handle ⟨none, none⟩
    (delegate.macroName, delegate.conditions)
  | .error _ => (none, none)

def IsMacroName (name : Text) : Prop :=
  isValidMacroName1stChar (currChar name) = true ∧ ∀ c ∈ name, isValidMacroNameNthChar c = true

/-- A condition that a key may have. -/
def IsCondition (condition : Text × Text) : Prop :=
  condition.1 ≠ [] ∧ IsParam condition.1 ∧ IsPattern condition.2

def writtenConditions (conditions : List (Text × Text)) : Text :=
  conditions.flatMap fun condition =>
    ascii '[' :: (condition.1 ++ ascii '=' :: (condition.2 ++ [ascii ']']))

/-- The conditions of a key, with whitespace before, between and after them. -/
inductive ConditionSuffix : Text → List (Text × Text) → Prop
  | none {ws : Text} : (∀ c ∈ ws, isAtWhitespace [c] = true) → ConditionSuffix ws []
  | more {ws rest : Text} {condition : Text × Text} {conditions : List (Text × Text)} :
      (∀ c ∈ ws, isAtWhitespace [c] = true) → IsCondition condition → ConditionSuffix rest conditions →
      ConditionSuffix (ws ++ writtenConditions [condition] ++ rest) (condition :: conditions)

/-- The key is a name and conditions, up to whitespace. -/
def KeyForm (key : Text) : Prop :=
  ∃ ws name rest conditions, key = ws ++ name ++ rest ∧ (∀ c ∈ ws, isAtWhitespace [c] = true) ∧ IsMacroName name ∧
    ConditionSuffix rest conditions

theorem writtenConditions_cons (condition : Text × Text) (conditions : List (Text × Text)) :
    writtenConditions (condition :: conditions)
      = ascii '[' :: (condition.1 ++ ascii '=' :: (condition.2 ++ ascii ']' :: writtenConditions conditions)) := by
  unfold writtenConditions
  rw [flatMap_cons]
  simp only [cons_append, append_assoc, nil_append]

section Written

variable {name : Text} {conditions : List (Text × Text)}

/-- After the name of a key there is a bracket, or the equals sign. -/
theorem currChar_writtenConditions (conditions : List (Text × Text)) :
    currChar (writtenConditions conditions ++ text "=") = ascii '[' ∨
      currChar (writtenConditions conditions ++ text "=") = ascii '=' := by
  cases conditions with
  | nil => exact .inr rfl
  | cons condition conditions =>
    rw [writtenConditions_cons]
    exact .inl rfl

theorem skipWhitespaceAndComments_writtenConditions (conditions : List (Text × Text)) :
    skipWhitespaceAndComments (writtenConditions conditions ++ text "=") = writtenConditions conditions ++ text "=" := by
  apply skipWhitespaceAndComments_of_stops
  · rcases currChar_writtenConditions conditions with h | h <;> rw [h] <;> rfl
  · have hslash : currChar (writtenConditions conditions ++ text "=") ≠ ascii '/' := by
      rcases currChar_writtenConditions conditions with h | h <;> rw [h] <;> decide
    exact decide_eq_false fun h => hslash h.1

theorem collects_writtenConditions (h : ∀ condition ∈ conditions, IsCondition condition) :
    Collects (writtenConditions conditions ++ text "=") conditions (text "=") := by
  induction conditions with
  | nil => exact .none (show ascii '=' ≠ ascii '[' by decide)
  | cons condition conditions ih =>
    obtain ⟨hcondition, hrest⟩ := forall_mem_cons.mp h
    have hcollects := ih hrest
    rw [← skipWhitespaceAndComments_writtenConditions] at hcollects
    rw [writtenConditions_cons]
    have hmore := Collects.more hcondition.2.1 hcondition.2.2 hcollects
    simpa only [cons_append, append_assoc] using hmore

theorem unbroken_cons {c : UInt8} {l : Text} (hc : c < 0x80) (h10 : c ≠ 10) (h13 : c ≠ 13) (h : Unbroken l) :
    Unbroken (c :: l) := by
  intro s hs hne
  rcases suffix_cons_iff.mp hs with rfl | hs
  · have hE2 : c ≠ 0xE2 := fun heq => absurd hc (by rw [heq]; decide)
    have hcurr : currChar (c :: l) = c := rfl
    simp only [isAtEndOfLine, isAtUnicodeSeparator, hcurr, h10, h13, hE2, cons_ne_nil, false_and, or_false,
      decide_false, Bool.false_eq_true]
  · exact h s hs hne

theorem unbroken_append {l l' : Text} (h : Unbroken l) (h' : Unbroken l') (hascii : currChar l' < 0x80) :
    Unbroken (l ++ l') := by
  induction l with
  | nil => exact h'
  | cons c cs ih =>
    intro s hs hne
    rcases suffix_cons_iff.mp hs with rfl | hs
    · show isAtEndOfLine (c :: cs ++ l') = false
      rw [isAtEndOfLine_append_ascii (cons_ne_nil c cs) hascii]
      exact h.ne (cons_ne_nil c cs)
    · exact ih h.tail s hs hne

theorem unbroken_writtenConditions (h : ∀ condition ∈ conditions, IsCondition condition) :
    Unbroken (writtenConditions conditions ++ text "=") := by
  induction conditions with
  | nil => exact unbroken_cons (by decide) (by decide) (by decide) unbroken_nil
  | cons condition conditions ih =>
    obtain ⟨hcondition, hrest⟩ := forall_mem_cons.mp h
    rw [writtenConditions_cons]
    simp only [cons_append, append_assoc]
    have hclosed := unbroken_cons (c := ascii ']') (by decide) (by decide) (by decide) (ih hrest)
    have hpattern := unbroken_append hcondition.2.2.1 hclosed (show ascii ']' < 0x80 by decide)
    have hequals := unbroken_cons (c := ascii '=') (by decide) (by decide) (by decide) hpattern
    have hparam := unbroken_append hcondition.2.1.1 hequals (show ascii '=' < 0x80 by decide)
    exact unbroken_cons (by decide) (by decide) (by decide) hparam

/-- The bytes that a name can have. -/
theorem nthChar_bounds {c : UInt8} (h : isValidMacroNameNthChar c = true) : 48 ≤ c.toNat ∧ c.toNat ≤ 122 := by
  have h0 : (ascii '0').toNat = 48 := rfl
  have h9 : (ascii '9').toNat = 57 := rfl
  have hA : (ascii 'A').toNat = 65 := rfl
  have hZ : (ascii 'Z').toNat = 90 := rfl
  have ha : (ascii 'a').toNat = 97 := rfl
  have hz : (ascii 'z').toNat = 122 := rfl
  simp only [isValidMacroNameNthChar, isAlpha, isDigit, Bool.or_eq_true, decide_eq_true_eq, UInt8.le_iff_toNat_le, h0, h9,
    hA, hZ, ha, hz] at h
  rcases h with (h | h) | rfl
  · omega
  · omega
  · decide

theorem nthChar_of_firstChar {c : UInt8} (h : isValidMacroName1stChar c = true) : isValidMacroNameNthChar c = true := by
  simp only [isValidMacroName1stChar, isValidMacroNameNthChar, Bool.or_eq_true] at h ⊢
  exact h.imp_left .inl

theorem unbroken_name (h : ∀ c ∈ name, isValidMacroNameNthChar c = true) : Unbroken name := by
  induction name with
  | nil => exact unbroken_nil
  | cons c cs ih =>
    obtain ⟨hc, hcs⟩ := forall_mem_cons.mp h
    obtain ⟨hlow, hhigh⟩ := nthChar_bounds hc
    refine unbroken_cons ?_ ?_ ?_ (ih hcs)
    · rw [UInt8.lt_iff_toNat_lt]
      exact Nat.lt_of_le_of_lt hhigh (by decide)
    · rintro rfl
      exact absurd hlow (by decide)
    · rintro rfl
      exact absurd hlow (by decide)

section

variable (hname : IsMacroName name)
include hname

theorem nameEnd_written {behind : Text}
    (hbehind : isValidMacroNameNthChar (currChar behind) = false) : nameEnd (name ++ behind) = behind := by
  obtain ⟨hfirst, hnth⟩ := hname
  cases name with
  | nil => cases hfirst
  | cons c cs =>
    have hgo : ∀ s, s <:+ cs → s ≠ [] → (!isValidMacroNameNthChar (currChar (s ++ behind))) = false := by
      intro s hs hne
      rw [currChar_append hne]
      obtain ⟨d, ds, rfl⟩ := exists_cons_of_ne_nil hne
      have hd := hnth d (mem_cons_of_mem c (hs.subset mem_cons_self))
      show (!isValidMacroNameNthChar d) = false
      rw [hd]
      rfl
    have hstop : (!isValidMacroNameNthChar (currChar behind)) = true := by
      rw [hbehind]
      rfl
    exact (Scan.scan_append_of_go hgo).trans (Scan.scan_of_stop hstop)

theorem skipWhitespaceAndComments_name {behind : Text} :
    skipWhitespaceAndComments (name ++ behind) = name ++ behind := by
  have hne : name ≠ [] := by
    rintro rfl
    cases hname.1
  have hcurr : currChar (name ++ behind) = currChar name := currChar_append hne
  obtain ⟨hlow, hhigh⟩ := nthChar_bounds (nthChar_of_firstChar hname.1)
  apply skipWhitespaceAndComments_of_stops
  · rw [hcurr]
    by_contra hspace
    have hspace : isASCIISpace (currChar name) = true := by simpa using hspace
    rcases of_decide_eq_true hspace with h | h | h | h
    all_goals
      rw [h] at hlow
      exact absurd hlow (by decide)
  · have hslash : currChar (name ++ behind) ≠ ascii '/' := by
      intro h
      rw [← hcurr, h] at hlow
      exact absurd hlow (by decide)
    exact decide_eq_false fun h => hslash h.1

section

variable (h : ∀ condition ∈ conditions, IsCondition condition)
include h

/-- A key and an equals sign are an assignment. -/
theorem assigns_written :
    Assigns (name ++ (writtenConditions conditions ++ text "=")) name conditions := by
  have hne : name ≠ [] := by
    rintro rfl
    cases hname.1
  have hbehind : isValidMacroNameNthChar (currChar (writtenConditions conditions ++ text "=")) = false := by
    rcases currChar_writtenConditions conditions with h | h <;> rw [h] <;> rfl
  unfold Assigns
  dsimp only
  rw [skipWhitespaceAndComments_name hname, nameEnd_written hname hbehind, slice_of_append,
    skipWhitespaceAndComments_writtenConditions, currChar_append hne]
  exact ⟨hname.1, rfl, [], collects_writtenConditions h⟩

theorem unbroken_written :
    Unbroken (name ++ (writtenConditions conditions ++ text "=")) := by
  apply unbroken_append (unbroken_name hname.2) (unbroken_writtenConditions h)
  rcases currChar_writtenConditions conditions with h | h <;> rw [h] <;> decide

end

end

end Written

/-- The parse of a text without line ends takes one turn. -/
theorem parse_unbroken (answers : Nat → Bool) (endsInBackslash : Text → Bool) (trimmed : Text → Text) (path : Text)
    (requests : Nat) {bytes : Text} (hne : bytes ≠ []) (hl : Unbroken bytes) :
    ∃ calls s, parse answers endsInBackslash trimmed path requests bytes = .ok (calls, s) ∧ TurnCalls bytes calls := by
  obtain ⟨calls, s, hparse, hloop⟩ := parse_eq_loop answers endsInBackslash trimmed path requests bytes
  refine ⟨calls, s, hparse, ?_⟩
  obtain ⟨first, s₁, hfirst, hend, hsuffix, -⟩ := parseLine_ends answers endsInBackslash trimmed path ⟨bytes, 1, requests⟩
  obtain ⟨more, hmore, rfl⟩ := parseLoop_turn answers endsInBackslash trimmed path hne hfirst hloop
  have hnil : s₁.rest = [] := hl.eq_nil hsuffix hend
  rw [scanEOL_nil hnil] at hmore
  have hnone : more = [] := by
    cases bytes with
    | nil => exact absurd rfl hne
    | cons c cs =>
      rw [length_cons, parseLoop, if_pos hnil] at hmore
      cases hmore
      rfl
  rw [hnone, append_nil]
  exact parseLine_turnCalls answers endsInBackslash trimmed path hfirst

section SingleMacroName

variable (endsInBackslash : Text → Bool) (trimmed : Text → Text)

/-- A name with conditions is parsed to itself. -/
theorem parseMacroNameAndConditionSet_written {name : Text} {conditions : List (Text × Text)}
    (hname : IsMacroName name) (h : ∀ condition ∈ conditions, IsCondition condition) :
    parseMacroNameAndConditionSet endsInBackslash trimmed (name ++ writtenConditions conditions)
      = (some name, if conditions = [] then none else some conditions) := by
  have hassigns := assigns_written hname h
  obtain ⟨calls, s, hparse, hcalls⟩ := parse_unbroken (fun _ => false) endsInBackslash trimmed [] 0
    (show name ++ (writtenConditions conditions ++ text "=") ≠ [] by simp [text]) (unbroken_written hname h)
  unfold parseMacroNameAndConditionSet
  rw [append_assoc, hparse]
  cases hcalls with
  | assignment hassigns' =>
    obtain ⟨rfl, rfl⟩ := hassigns.unique hassigns'
    rfl
  | inclusion hincludes => exact absurd hincludes (hassigns.not_includes _)
  | diagnostics hno => exact absurd hassigns (hno name conditions)

def DelegateCall.isAssignment : DelegateCall → Bool
  | .foundMacroValueAssignment _ _ _ _ _ _ _ _ => true
  | _ => false

theorem TurnCalls.isAssignment_iff {rest : Text} {calls : List DelegateCall} (h : TurnCalls rest calls) :
    (∀ call ∈ calls, call.isAssignment = false) ↔ ∀ name conditions, ¬Assigns rest name conditions := by
  cases h with
  | assignment hassigns =>
    refine iff_of_false (fun hcalls => ?_) fun hno => hno _ _ hassigns
    exact Bool.noConfusion (hcalls _ mem_cons_self)
  | @inclusion fileName _ more hincludes hmore =>
    refine iff_of_true ?_ fun name conditions hassigns => hassigns.not_includes fileName hincludes
    intro call hcall
    rcases mem_cons.mp hcall with rfl | hcall
    · rfl
    · rcases hmore call hcall with rfl | rfl <;> rfl
  | diagnostics hno _ hcalls =>
    refine iff_of_true ?_ hno
    intro call hcall
    obtain ⟨diagnostic, rfl⟩ := hcalls call hcall
    rfl

/-- The delegate has a name when an assignment was found. -/
theorem macroName_eq_none_iff (calls : List DelegateCall) (delegate : SingleMacroNameDelegate) :
    (calls.foldl SingleMacroNameDelegate.handle delegate).macroName = none
      ↔ (∀ call ∈ calls, call.isAssignment = false) ∧ delegate.macroName = none := by
  induction calls generalizing delegate with
  | nil => exact ⟨fun h => ⟨fun _ hcall => absurd hcall not_mem_nil, h⟩, fun h => h.2⟩
  | cons call calls ih =>
    rw [foldl_cons, ih, forall_mem_cons]
    cases hcall : call.isAssignment with
    | true =>
      cases call with
      | foundMacroValueAssignment => exact iff_of_false (fun h => nomatch h.2) fun h => nomatch h.1.1
      | _ => cases hcall
    | false =>
      have hkeep : delegate.handle call = delegate := by
        cases call with
        | foundMacroValueAssignment => cases hcall
        | _ => rfl
      rw [hkeep, and_iff_right rfl]

/-- A key has no name when no line of it is an assignment. -/
theorem parseMacroNameAndConditionSet_eq_none_iff (key : Text) :
    (parseMacroNameAndConditionSet endsInBackslash trimmed key).1 = none ↔
      ∀ s, Reaches (fun _ => false) endsInBackslash trimmed [] ⟨key ++ text "=", 1, 0⟩ s →
        ∀ name conditions, ¬Assigns s.rest name conditions := by
  obtain ⟨calls, s, hparse, hloop⟩ := parse_eq_loop (fun _ => false) endsInBackslash trimmed [] 0 (key ++ text "=")
  rw [← parseLoop_forall not_assigns_nil TurnCalls.isAssignment_iff hloop]
  unfold parseMacroNameAndConditionSet
  rw [hparse]
  show (calls.foldl SingleMacroNameDelegate.handle ⟨none, none⟩).macroName = none ↔ _
  rw [macroName_eq_none_iff, and_iff_left rfl]

/-- The guarantees hold in a parse if and only if every line that its loop comes to has the names that it should have,
and only for these can the parameters be declared. A key of the right form is parsed to itself; one of another form
has no name if and only if it has no line that is an assignment with the equals sign behind the key. -/
theorem callback_contract (fns : MatchFunctions) :
    (∀ answers path requests bytes, ∃ calls s,
        parse answers endsInBackslash trimmed path requests bytes = .ok (calls, s) ∧
          ((∀ call ∈ calls, call.Guaranteed) ↔
            ∀ s', Reaches answers endsInBackslash trimmed path ⟨bytes, 1, requests⟩ s' → Named s'.rest)) ∧
      (∀ conditions ns, (∃ r, declareConditions fns conditions ns = .ok r) ↔
        ∀ condition ∈ conditions, condition.1 ≠ []) ∧
      (∀ name conditions, IsMacroName name → (∀ condition ∈ conditions, IsCondition condition) →
        parseMacroNameAndConditionSet endsInBackslash trimmed (name ++ writtenConditions conditions)
          = (some name, if conditions = [] then none else some conditions)) ∧
      ∀ key, ¬KeyForm key → ((parseMacroNameAndConditionSet endsInBackslash trimmed key).1 = none ↔
        ∀ s, Reaches (fun _ => false) endsInBackslash trimmed [] ⟨key ++ text "=", 1, 0⟩ s →
          ∀ name conditions, ¬Assigns s.rest name conditions) := by
  refine ⟨?_, declareConditions_ok_iff fns, ?_, ?_⟩
  · intro answers path requests bytes
    obtain ⟨calls, s, hparse, hloop⟩ := parse_eq_loop answers endsInBackslash trimmed path requests bytes
    exact ⟨calls, s, hparse, parseLoop_forall named_nil TurnCalls.guaranteed_iff hloop⟩
  · intro name conditions hname hconditions
    exact parseMacroNameAndConditionSet_written endsInBackslash trimmed hname hconditions
  · exact fun key _ => parseMacroNameAndConditionSet_eq_none_iff endsInBackslash trimmed key

end SingleMacroName

set_option maxRecDepth 2000 in
theorem callback_contract_debug :
    parseMacroNameAndConditionSet (fun _ => false) id (text "ABC[config=Debug]")
      = (some (text "ABC"), some [(text "config", text "Debug")]) := by
  have h := (callback_contract (fun _ => false) id ⟨fun a b => a == b, fun _ _ => true, id⟩).2.2.1 (text "ABC")
    [(text "config", text "Debug")] ⟨by decide, by decide⟩
  refine h ?_
  intro condition hcondition
  obtain rfl := mem_singleton.mp hcondition
  refine ⟨by decide, ⟨unbroken_name (by decide), by decide⟩, unbroken_name (by decide), by decide⟩

/-- A condition may have an empty parameter, which cannot be declared; a file name may be empty; and a key with an
equals sign is a name with a value. -/
theorem not_guaranteed :
    (∃ calls s, parse (fun _ => true) (fun _ => false) id (text "f") 0 (text "A[=b]=1") = .ok (calls, s) ∧
        ¬∀ call ∈ calls, call.Guaranteed) ∧
      (∀ fns ns, declareConditions fns [([], text "b")] ns = .error .precondition) ∧
      (∃ calls s, parse (fun _ => true) (fun _ => false) id (text "f") 0 (text "#include \"\"") = .ok (calls, s) ∧
        ¬∀ call ∈ calls, call.Guaranteed) ∧
      ¬KeyForm (text "X=1") ∧ (parseMacroNameAndConditionSet (fun _ => false) id (text "X=1")).1 = some (text "X") := by
  refine ⟨⟨_, _, rfl, fun h => ?_⟩, fun _ _ => rfl, ⟨_, _, rfl, fun h => ?_⟩, ?_, rfl⟩
  · exact (h _ mem_cons_self).2 _ mem_cons_self rfl
  · exact h _ mem_cons_self rfl
  · -- an equals sign stands in brackets only
    rintro ⟨ws, name, rest, conditions, hkey, hws, hname, hsuffix⟩
    have hequals : ascii '=' ∈ text "X=1" := by decide
    rw [hkey, mem_append, mem_append] at hequals
    rcases hequals with (hmem | hmem) | hmem
    · exact absurd (hws _ hmem) (by decide)
    · exact absurd (hname.2 _ hmem) (by decide)
    · cases hsuffix with
      | none hspace => exact absurd (hspace _ hmem) (by decide)
      | more =>
        have hbracket : ascii '[' ∈ text "X=1" := by
          rw [hkey]
          simp [writtenConditions]
        exact absurd hbracket (by decide)

end Builra.Macro.ConfigFile
