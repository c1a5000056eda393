import Builra.Macro.Compile
import Builra.Macro.Termination

namespace Builra.Macro

/-!
# `Macro.Meaning` — the program of an expression computes the value of its syntax tree

`directValue` evaluates an expression through a scope without any program: by recursion over its syntax tree,
where a reference is evaluated in the nested context of the assignment that the scope looks up. It ends since a
nested context has fewer assignments left. Expressions whose text has no tree (the parser accepts every text)
have the elements that their program gives.
-/

open Splice MacroEvaluationResultBuilder List

/-! ## Buffers of a run

Whatever the instructions are, each buffer stands for a list of elements. -/

namespace MacroEvaluationResultBuilder

/-- The buffer is the one of some list of elements, and a separator is only pending after an element. -/
def Canonical (b : MacroEvaluationResultBuilder) : Prop :=
  ∃ es pending, b = ofElements es pending ∧ (pending = true → es ≠ [])

theorem canonical_empty : Canonical {} := ⟨[], false, rfl, by simp⟩

variable {b : MacroEvaluationResultBuilder}

section

variable (h : b.Canonical)
include h

theorem Canonical.eq_ofElements :
    ∃ pending, b = ofElements b.buildStringList pending := by
  obtain ⟨es, pending, rfl, -⟩ := h
  refine ⟨pending, ?_⟩
  rw [buildStringList, enumerate_ofElements]

theorem Canonical.addElements (xs : List Text) :
    (b.addElements xs).Canonical := by
  obtain ⟨es, pending, rfl, hpending⟩ := h
  by_cases hxs : xs = []
  · subst hxs
    exact ⟨es, pending, rfl, hpending⟩
  · exact ⟨_, false, ofElements_addElements hpending hxs, by simp⟩

theorem Canonical.append (s : Text) : (b.append s).Canonical := by
  rw [append_eq_addElements]
  exact h.addElements [s]

theorem Canonical.setNeeds :
    b.setNeedsListElementSeparator.Canonical := by
  obtain ⟨es, pending, rfl, hpending⟩ := h
  refine ⟨es, _, ofElements_setNeeds es pending, ?_⟩
  intro hnow
  rcases Bool.or_eq_true_iff.mp hnow with hnow | hnow
  · exact hpending hnow
  · exact of_decide_eq_true hnow

theorem Canonical.appendContents {other : MacroEvaluationResultBuilder} (hother : other.Canonical) :
    (b.appendContentsOfResultBuilder other).Canonical := by
  obtain ⟨xs, pending, rfl, -⟩ := hother
  rw [appendContents_ofElements]
  exact h.addElements xs

end

theorem canonical_collectElements (es : List Text) : (collectElements es).Canonical := by
  rw [collectElements_eq]
  exact ⟨es, _, rfl, of_decide_eq_true⟩

end MacroEvaluationResultBuilder

namespace Machine

structure Canonical (m : Machine) : Prop where
  subresults : ∀ b ∈ m.subresults, b.Canonical
  resultBuilder : m.resultBuilder.Canonical

theorem Canonical.modifyTop {m : Machine} (h : m.Canonical)
    {f : MacroEvaluationResultBuilder → MacroEvaluationResultBuilder} (hf : ∀ b, b.Canonical → (f b).Canonical) :
    (m.modifyTop f).Canonical := by
  obtain ⟨stack, rb⟩ := m
  cases stack with
  | nil => exact ⟨by simp [Machine.modifyTop], hf rb h.resultBuilder⟩
  | cons top below =>
    obtain ⟨htop, hbelow⟩ := forall_mem_cons.mp h.subresults
    exact ⟨forall_mem_cons.mpr ⟨hf top htop, hbelow⟩, h.resultBuilder⟩

variable {rb top : MacroEvaluationResultBuilder} {stack : List MacroEvaluationResultBuilder}

/-- Take the top buffer off. -/
theorem Canonical.pop (h : Canonical ⟨top :: stack, rb⟩) : top.Canonical ∧ Canonical ⟨stack, rb⟩ := by
  obtain ⟨htop, hbelow⟩ := forall_mem_cons.mp h.subresults
  exact ⟨htop, hbelow, h.resultBuilder⟩

theorem Canonical.push (h : Canonical ⟨stack, rb⟩) (htop : top.Canonical) : Canonical ⟨top :: stack, rb⟩ :=
  ⟨forall_mem_cons.mpr ⟨htop, h.subresults⟩, h.resultBuilder⟩

end Machine

section Canonicity

variable {β : Type} {fns : StringFunctions} {resolve : Text → Resolution β}
  {evaluate : β → Bool → MacroEvaluationResultBuilder → Except Halt MacroEvaluationResultBuilder} {always : Bool}

/-- Evaluating a value keeps buffers canonical. -/
def KeepsCanonical
    (evaluate : β → Bool → MacroEvaluationResultBuilder → Except Halt MacroEvaluationResultBuilder) : Prop :=
  ∀ v asString b b', b.Canonical → evaluate v asString b = .ok b' → b'.Canonical

theorem executeInstruction_canonical (hev : KeepsCanonical evaluate) {m m' : Machine} {i : EvalInstr}
    (h : m.Canonical) (hstep : executeInstruction fns resolve evaluate always m i = .ok m') : m'.Canonical := by
  have happend : ∀ {m : Machine} (s : Text), m.Canonical → (m.modifyTop (·.append s)).Canonical :=
    fun s hm => hm.modifyTop fun b hb => hb.append s
  obtain ⟨stack, rb⟩ := m
  cases i with
  | appendLiteral s =>
    cases hstep
    exact happend s h
  | appendStringFormOnlyLiteral s =>
    cases hstep
    split
    · exact happend s h
    · exact h
  | setNeedsListSeparator s =>
    cases hstep
    split
    · exact happend s h
    · exact h.modifyTop fun b hb => hb.setNeeds
  | beginSubresult =>
    cases hstep
    exact h.push canonical_empty
  | evalNamedMacro asString preserves =>
    cases stack with
    | nil => cases hstep
    | cons nb rest =>
      obtain ⟨-, hrest⟩ := h.pop
      simp only [executeInstruction] at hstep
      cases hresolve : resolve nb.buildString with
      | unknownMacro =>
        simp only [hresolve] at hstep
        cases hstep
        split
        · exact happend _ hrest
        · exact hrest
      | noValue type =>
        simp only [hresolve] at hstep
        split at hstep
        · cases hstep
          exact happend _ hrest
        · split at hstep
          · cases hstep
            exact happend _ hrest
          · cases hstep
            exact hrest
      | value v =>
        simp only [hresolve] at hstep
        cases rest with
        | nil => cases hstep
        | cons top below =>
          obtain ⟨htop, hbelow⟩ := hrest.pop
          cases hvalue : evaluate v (asString || always) top with
          | error e =>
            simp only [hvalue] at hstep
            cases hstep
          | ok top' =>
            simp only [hvalue] at hstep
            cases hstep
            exact hbelow.push (hev v _ top top' htop hvalue)
  | mergeSubresult =>
    cases stack with
    | nil => cases hstep
    | cons nb rest =>
      obtain ⟨hnb, hrest⟩ := h.pop
      cases hstep
      exact hrest.modifyTop fun b hb => hb.appendContents hnb
  | applyRetrievalOperator op =>
    cases stack with
    | nil => cases hstep
    | cons sb rest =>
      obtain ⟨-, hrest⟩ := h.pop
      cases hstep
      exact hrest.push (canonical_collectElements _)
  | applyReplacementOperator op =>
    cases stack with
    | nil => cases hstep
    | cons operandBuilder rest =>
      cases rest with
      | nil => cases hstep
      | cons sb rest =>
        obtain ⟨-, hrest⟩ := h.pop.2.pop
        cases hstep
        apply hrest.push
        split
        · exact canonical_collectElements _
        · split
          · exact canonical_empty.append _
          · exact canonical_empty

theorem runInstructions_canonical (hev : KeepsCanonical evaluate) {instructions : List EvalInstr} {m m' : Machine}
    (h : m.Canonical) (hrun : runInstructions fns resolve evaluate always instructions m = .ok m') :
    m'.Canonical := by
  induction instructions generalizing m with
  | nil =>
    cases hrun
    exact h
  | cons i instructions ih =>
    rw [runInstructions_cons] at hrun
    cases hstep : executeInstruction fns resolve evaluate always m i with
    | error e =>
      rw [hstep] at hrun
      cases hrun
    | ok m₁ =>
      rw [hstep] at hrun
      exact ih (executeInstruction_canonical hev h hstep) hrun

end Canonicity

theorem executeInContext_canonical {fns : StringFunctions} {mfns : MatchFunctions} {scope : MacroEvaluationScope}
    {fuel : Nat} {context : MacroEvaluationContext} {program : MacroEvaluationProgram} {asString : Bool}
    {b b' : MacroEvaluationResultBuilder} (h : b.Canonical)
    (hrun : executeInContext fns mfns scope false fuel context program asString b = .ok b') : b'.Canonical := by
  induction fuel generalizing context program asString b b' with
  | zero => cases hrun
  | succ fuel ih =>
    cases program with
    | empty =>
      cases hrun
      exact h
    | literal s =>
      cases hrun
      exact h.append s
    | instructions is =>
      rw [executeInContext, executeProgram] at hrun
      generalize hm : runInstructions fns _ _ asString is ⟨[], b⟩ = result at hrun
      cases result with
      | error e => cases hrun
      | ok m =>
        cases hrun
        refine (runInstructions_canonical ?_ ⟨by simp, h⟩ hm).resultBuilder
        intro v mode top top' htop hvalue
        exact ih htop hvalue

/-! ## Syntax of expressions -/

/-- What an expression was made from. -/
inductive ExpressionSyntax where
  | literalString (s : Text)
  | literalStringList (strings : List Text)
  | string (t : Fragment)
  | stringList (t : ListText)

/-- The expression is made from the literals, or from the text of the well-formed tree. -/
def ExpressionSyntax.Makes (expr : MacroExpression) : ExpressionSyntax → Prop
  | .literalString s => expr = parseLiteralString s
  | .literalStringList strings => ∃ stringRep, expr = parseLiteralStringList stringRep strings
  | .string t => t.WellFormed specialInString ∧ parseString t.text = .ok expr
  | .stringList t => t.WellFormed ∧ parseStringList t.text = .ok expr

/-- Literal strings, with a space between them in string form. -/
def literalsValue (stringForm : Bool) : List Text → List Text
  | [] => []
  | s :: strings =>
    if stringForm then [strings.foldl (fun joined string => joined ++ (text " " ++ string)) s] else s :: strings

def ExpressionSyntax.eval (fns : StringFunctions) (reading : Reading) (values : Text → Bool → List Text)
    (stringForm : Bool) : ExpressionSyntax → List Text
  | .literalString s => [s]
  | .literalStringList strings => literalsValue stringForm strings
  | .string t => stringValue fns reading values t
  | .stringList t => t.eval fns reading values stringForm

theorem fragment_of_no_dollar {t : Fragment} (h : ascii '$' ∉ t.text) : ∃ s, t = .literal s := by
  cases t with
  | literal s => exact ⟨s, rfl⟩
  | dollar s rest => simp [Fragment.text] at h
  | reference s name operators rest => simp [Fragment.text] at h

/-- `parseString` of a well-formed string gives its code, also on the fast path for literal strings. -/
theorem parseString_text {t : Fragment} (hwf : t.WellFormed specialInString) :
    ∃ expr, parseString t.text = .ok expr
      ∧ expr.evalProgram = .ofInstructions (if t.isEmpty then [.appendLiteral []] else t.compile true) := by
  obtain ⟨calls, hparse, hemits, -⟩ := parse_stringText hwf
  unfold parseString
  split
  · split
    · rename_i calls' rest parsed
      rw [hparse] at parsed
      cases parsed
      exact ⟨_, rfl, congrArg MacroEvaluationProgram.ofInstructions hemits⟩
    · rename_i violation parsed
      rw [hparse] at parsed
      cases parsed
  · rename_i hdollar
    obtain ⟨s, rfl⟩ := fragment_of_no_dollar hdollar
    refine ⟨_, rfl, ?_⟩
    cases s <;> rfl

theorem parseStringList_text {t : ListText} (hwf : t.WellFormed) :
    ∃ expr, parseStringList t.text = .ok expr ∧ expr.evalProgram = .ofInstructions t.compile := by
  obtain ⟨calls, hparse, hemits, -⟩ := parse_listText hwf
  unfold parseStringList
  split
  · rename_i calls' rest parsed
    rw [hparse] at parsed
    cases parsed
    exact ⟨_, rfl, congrArg MacroEvaluationProgram.ofInstructions hemits⟩
  · rename_i violation parsed
    rw [hparse] at parsed
    cases parsed

section Programs

variable {β : Type} {fns : StringFunctions} {resolve : Text → Resolution β}
  {evaluate : β → Bool → MacroEvaluationResultBuilder → Except Halt MacroEvaluationResultBuilder} {always : Bool}
  {elements : β → Bool → List Text}

/-- The code of literals after the first one. -/
theorem run_literals (strings : List Text) {rb : MacroEvaluationResultBuilder} {first : List Text}
    (h : Holds always rb first) :
    ∃ rb', runInstructions fns resolve evaluate always (literalListInstructions true strings) ⟨[], rb⟩
        = .ok ⟨[], rb'⟩
      ∧ Holds always rb' (if always
          then strings.foldl (fun joined string => splice joined [text " " ++ string]) first
          else first ++ strings) := by
  induction strings generalizing rb first with
  | nil => exact ⟨rb, rfl, by cases always <;> simpa using h⟩
  | cons s strings ih =>
    have hcode : ∀ m, runInstructions fns resolve evaluate always [.appendLiteral s] m = .ok (m.add [s]) := by
      intro m
      rw [run_cons (execute_appendLiteral s m)]
      rfl
    obtain ⟨rb', hrun, hholds⟩ := run_next hcode h (text " ")
    obtain ⟨rb'', hrest, hholds'⟩ := ih hholds
    refine ⟨rb'', ?_, ?_⟩
    · have hsplit : literalListInstructions true (s :: strings)
          = (.setNeedsListSeparator (text " ") :: [.appendLiteral s]) ++ literalListInstructions true strings := rfl
      rw [hsplit, run_append hrun, hrest]
    · cases always with
      | true => simpa [splice] using hholds'
      | false => simpa using hholds'

theorem foldl_splice_singleton (strings : List Text) (s : Text) :
    strings.foldl (fun joined string => splice joined [text " " ++ string]) [s]
      = [strings.foldl (fun joined string => joined ++ (text " " ++ string)) s] := by
  induction strings generalizing s with
  | nil => rfl
  | cons t strings ih => exact ih (s ++ (text " " ++ t))

variable (fns resolve evaluate always) in
theorem run_literalList (strings : List Text) :
    ∃ rb, runInstructions fns resolve evaluate always (literalListInstructions false strings) ⟨[], {}⟩
        = .ok ⟨[], rb⟩
      ∧ Holds always rb (literalsValue always strings) := by
  cases strings with
  | nil => exact ⟨{}, rfl, holds_empty always⟩
  | cons s strings =>
    have hfirst := (holds_empty always).splice [s] (.inr rfl)
    obtain ⟨rb, hrun, hholds⟩ := run_literals strings hfirst
    refine ⟨rb, ?_, ?_⟩
    · have hsplit : literalListInstructions false (s :: strings)
          = [.appendLiteral s] ++ literalListInstructions true strings := rfl
      rw [hsplit, run_append (run_cons (execute_appendLiteral s _))]
      exact hrun
    · cases always with
      | true => simpa [literalsValue, foldl_splice_singleton] using hholds
      | false => simpa [literalsValue] using hholds

/-- The program of an expression gives the elements of its syntax. -/
theorem executeProgram_syntax (hev : Computes resolve evaluate elements) {expr : MacroExpression}
    {tree : ExpressionSyntax} (htree : tree.Makes expr) :
    ∃ pending, executeProgram fns resolve evaluate always false expr.evalProgram {}
      = .ok (ofElements (tree.eval fns (.byDesign fns) (runValues resolve elements) always) pending) := by
  cases tree with
  | literalString s =>
    cases htree
    refine ⟨false, ?_⟩
    rw [ExpressionSyntax.eval, ← addElements_empty, ← append_eq_addElements]
    rfl
  | literalStringList strings =>
    obtain ⟨stringRep, rfl⟩ := htree
    obtain ⟨rb, hrun, ⟨pending, rfl, -⟩⟩ := run_literalList fns resolve evaluate always strings
    refine ⟨pending, ?_⟩
    rw [parseLiteralStringList, executeProgram_ofInstructions, hrun]
    rfl
  | string t =>
    obtain ⟨hwf, hparse⟩ := htree
    obtain ⟨expr', hparse', hprogram⟩ := parseString_text hwf
    rw [hparse] at hparse'
    cases hparse'
    refine ⟨false, ?_⟩
    rw [hprogram, executeProgram_ofInstructions, ExpressionSyntax.eval, stringValue]
    split
    · rfl
    · rw [run_fragment hev]
      simp only [Bool.true_or, Machine.add, Machine.modifyTop, addElements_empty]
      rfl
  | stringList t =>
    obtain ⟨hwf, hparse⟩ := htree
    obtain ⟨expr', hparse', hprogram⟩ := parseStringList_text hwf
    rw [hparse] at hparse'
    cases hparse'
    obtain ⟨rb, hrun, ⟨pending, rfl, -⟩⟩ := run_listText fns always hev t
    refine ⟨pending, ?_⟩
    rw [hprogram, executeProgram_ofInstructions, hrun]
    rfl

end Programs

/-! ## Direct evaluation through a scope -/

section Direct

variable (fns : StringFunctions) (mfns : MatchFunctions) (scope : MacroEvaluationScope)

/-- The elements that the program of an expression gives. -/
def executedElements (context : MacroEvaluationContext) (expr : MacroExpression) (asString : Bool) : List Text :=
  match executeInContext fns mfns scope false (assignmentsLeft scope context + 1) context expr.evalProgram asString {} with
  | .ok b => b.buildStringList
  | .error _ => []

open Classical in
/-- The elements of an expression in a context, by recursion over its syntax and over the assignments that the
scope looks up. -/
noncomputable def directValue (reading : Reading) (context : MacroEvaluationContext) (expr : MacroExpression)
    (asString : Bool) : List Text :=
  if h : ∃ tree, ExpressionSyntax.Makes expr tree then
    h.choose.eval fns reading
      (fun name mode =>
        match _hresolve : resolveInContext mfns scope context name with
        | .value v => directValue reading v.1 v.2 mode
        | .noValue type => if type = .boolean ∨ type = .string then [[]] else []
        | .unknownMacro => [])
      asString
  else executedElements fns mfns scope context expr asString
termination_by assignmentsLeft scope context
decreasing_by exact assignmentsLeft_resolved mfns scope _hresolve

/-- The elements of the value that the scope looks up for a name, in a context. -/
noncomputable def scopeValues (reading : Reading) (context : MacroEvaluationContext) : Text → Bool → List Text :=
  runValues (resolveInContext mfns scope context) fun v mode => directValue fns mfns scope reading v.1 v.2 mode

open Classical in
theorem directValue_eq (reading : Reading) (context : MacroEvaluationContext) (expr : MacroExpression)
    (asString : Bool) :
    directValue fns mfns scope reading context expr asString
      = if h : ∃ tree, ExpressionSyntax.Makes expr tree then
          h.choose.eval fns reading (scopeValues fns mfns scope reading context) asString
        else executedElements fns mfns scope context expr asString := by
  have hvalues : (fun name mode =>
        match _hresolve : resolveInContext mfns scope context name with
        | .value v => directValue fns mfns scope reading v.1 v.2 mode
        | .noValue type => if type = .boolean ∨ type = .string then [[]] else []
        | .unknownMacro => []) = scopeValues fns mfns scope reading context := by
    funext name mode
    unfold scopeValues runValues resolvedValue
    split <;> simp_all
  rw [directValue, hvalues]

/-- Executing an expression gives its direct value. -/
theorem executeInContext_directValue (fuel : Nat) (context : MacroEvaluationContext) (expr : MacroExpression)
    (asString : Bool) (hfuel : assignmentsLeft scope context < fuel) :
    ∃ pending, executeInContext fns mfns scope false fuel context expr.evalProgram asString {}
      = .ok (ofElements (directValue fns mfns scope (.byDesign fns) context expr asString) pending) := by
  induction fuel generalizing context expr asString with
  | zero => omega
  | succ fuel ih =>
    rw [directValue_eq]
    by_cases h : ∃ tree, ExpressionSyntax.Makes expr tree
    · rw [dif_pos h]
      apply executeProgram_syntax ?_ h.choose_spec
      -- what is looked up has fewer assignments left
      intro name v hv mode
      have hless := assignmentsLeft_resolved mfns scope hv
      exact ih v.1 v.2 mode (by omega)
    · rw [dif_neg h]
      obtain ⟨b, hb⟩ := executeInContext_returns fns mfns scope false (fuel + 1) context expr asString {}
        hfuel nofun
      have hstable := executeInContext_stable fns mfns scope false (fuel + 1) (assignmentsLeft scope context + 1)
        context hfuel (Nat.lt_succ_self _)
      obtain ⟨pending, hcanonical⟩ := (executeInContext_canonical canonical_empty hb).eq_ofElements
      refine ⟨pending, ?_⟩
      rw [executedElements, ← hstable, hb]
      exact congrArg Except.ok hcanonical

/-- With enough fuel the values that a context looks up are their direct values. -/
theorem computes_directValue {fuel : Nat} {context : MacroEvaluationContext} (hfuel : assignmentsLeft scope context ≤ fuel) :
    Computes (resolveInContext mfns scope context)
      (fun value asString b => executeInContext fns mfns scope false fuel value.1 value.2.evalProgram asString b)
      fun v mode => directValue fns mfns scope (.byDesign fns) v.1 v.2 mode := by
  intro name v hv mode
  have hless := assignmentsLeft_resolved mfns scope hv
  exact executeInContext_directValue fns mfns scope fuel v.1 v.2 mode (by omega)

/-- In every context, and in both modes, executing the program of the expression gives these elements as a list
and their concatenation as a string. A debug build does the same, or stops at the assertion for a value that is
looked up (`executeInContext_asserts`). -/
def Means (expr : MacroExpression) (elements : MacroEvaluationContext → Bool → List Text) : Prop :=
  ∀ context asString fuel, assignmentsLeft scope context < fuel →
    ∃ b, executeInContext fns mfns scope false fuel context expr.evalProgram asString {} = .ok b
      ∧ b.buildStringList = elements context asString
      ∧ b.buildString = (elements context asString).flatten

/-- Compilation preserves the meaning of every well-formed text, under a reading of direct evaluation. -/
def PreservesMeaning (reading : Reading) : Prop :=
  (∀ t : Fragment, t.WellFormed specialInString → ∃ expr, parseString t.text = .ok expr
    ∧ Means fns mfns scope expr fun context _ =>
      stringValue fns reading (scopeValues fns mfns scope reading context) t)
  ∧ ∀ t : ListText, t.WellFormed → ∃ expr, parseStringList t.text = .ok expr
    ∧ Means fns mfns scope expr fun context asString =>
      t.eval fns reading (scopeValues fns mfns scope reading context) asString

theorem means_of_tree {expr : MacroExpression} {tree : ExpressionSyntax} (htree : tree.Makes expr) :
    Means fns mfns scope expr fun context asString =>
      tree.eval fns (.byDesign fns) (scopeValues fns mfns scope (.byDesign fns) context) asString := by
  intro context asString fuel hfuel
  obtain ⟨fuel, rfl⟩ : ∃ n, fuel = n + 1 := ⟨fuel - 1, by omega⟩
  have hev := computes_directValue fns mfns scope (Nat.le_of_lt_succ hfuel)
  obtain ⟨pending, hrun⟩ := executeProgram_syntax hev htree
  exact ⟨_, hrun, enumerate_ofElements _ _, buildString_ofElements _ _⟩

/-- **Macro compilation preserves meaning**: for every scope and every well-formed text, executing the program of
the parser gives the elements of the syntax tree. An operator may apply to an empty list, and a reference that is
evaluated as a string has the elements of its string form. -/
theorem compilation_preserves_meaning : PreservesMeaning fns mfns scope (.byDesign fns) := by
  constructor
  · intro t hwf
    obtain ⟨expr, hparse, -⟩ := parseString_text hwf
    have htree : ExpressionSyntax.Makes expr (.string t) := ⟨hwf, hparse⟩
    exact ⟨expr, hparse, means_of_tree fns mfns scope htree⟩
  · intro t hwf
    obtain ⟨expr, hparse, -⟩ := parseStringList_text hwf
    have htree : ExpressionSyntax.Makes expr (.stringList t) := ⟨hwf, hparse⟩
    exact ⟨expr, hparse, means_of_tree fns mfns scope htree⟩

end Direct

/-! ## What the elementwise reading misses -/

section Elementwise

/-- Operators that change nothing, which is enough to tell the readings apart. -/
def plainFunctions : StringFunctions := ⟨fun _ s => s, fun _ s _ => s⟩

def plainMatch : MatchFunctions := ⟨fun a b => a == b, fun a b => a == b, id⟩

/-- No macro is declared. -/
def emptyScope : MacroEvaluationScope := ⟨⟨.root [], []⟩, fun _ => none⟩

/-- `$(U:default=x)`. -/
def defaultOfUndeclared : ListText :=
  .elements [] ⟨[], .reference [] (.literal (text "U")) (.replacement .default (.literal (text "x")) .done)
    (.literal [])⟩ [] []

/-- `"$(U)"`. -/
def quotedUndeclared : ListText :=
  .elements [] ⟨[(.literal [], .double, .reference [] (.literal (text "U")) .done (.literal []))], .literal []⟩ [] []

theorem scopeValues_undeclared (reading : Reading) (context : MacroEvaluationContext) (asString : Bool) :
    scopeValues plainFunctions plainMatch emptyScope reading context (text "U") asString = [] := by
  have hresolve : resolveInContext plainMatch emptyScope context (text "U") = .unknownMacro := by
    have hname : ¬(text "U" = []) ∧ ¬(text "U" = text "inherited" ∨ text "U" = text "value") := by decide
    simp [resolveInContext, lookupMacroInContext, hname, emptyScope, MacroNamespace.lookupMacroDeclaration]
  unfold scopeValues runValues
  rw [hresolve]
  rfl

theorem literal_of_decide {special : UInt8 → Bool} {s : Text} (h : s.all (fun c => !special c) = true) :
    Literal special s := by
  simpa [Literal] using h

theorem defaultOfUndeclared_wellFormed : defaultOfUndeclared.WellFormed := by
  refine ⟨by simp [Whitespace], ⟨.inr rfl, by simp, ?_⟩, by simp, by simp [Whitespace]⟩
  exact ⟨literal_of_decide rfl, rfl, literal_of_decide (by decide), ⟨literal_of_decide (by decide), trivial⟩,
    literal_of_decide rfl⟩

theorem quotedUndeclared_wellFormed : quotedUndeclared.WellFormed := by
  refine ⟨by simp [Whitespace], ⟨.inl (by simp), ?_, literal_of_decide rfl⟩, by simp, by simp [Whitespace]⟩
  intro g hg
  cases mem_singleton.mp hg
  exact ⟨literal_of_decide rfl, literal_of_decide rfl, rfl, literal_of_decide (by decide), trivial,
    literal_of_decide rfl⟩

/-- A reading that preserves meaning agrees with the code on every list. -/
theorem eval_eq_of_preserves {reading : Reading} {t : ListText} (hwf : t.WellFormed)
    (h : PreservesMeaning plainFunctions plainMatch emptyScope reading) (context : MacroEvaluationContext) :
    t.eval plainFunctions reading (scopeValues plainFunctions plainMatch emptyScope reading context) false
      = t.eval plainFunctions (.byDesign plainFunctions)
          (scopeValues plainFunctions plainMatch emptyScope (.byDesign plainFunctions) context) false := by
  obtain ⟨expr, hparse, hmeans⟩ := h.2 t hwf
  have htree : ExpressionSyntax.Makes expr (.stringList t) := ⟨hwf, hparse⟩
  obtain ⟨b, hrun, hlist, -⟩ := hmeans context false _ (Nat.lt_succ_self _)
  obtain ⟨b', hrun', hlist', -⟩ :=
    means_of_tree plainFunctions plainMatch emptyScope htree context false _ (Nat.lt_succ_self _)
  rw [hrun] at hrun'
  cases hrun'
  exact hlist.symm.trans hlist'

/-- The elementwise reading is not what the code computes, and neither of its two parts is: `$(U:default=x)` is
the list `x` and not empty, and `"$(U)"` is empty and not one empty element. -/
theorem compilation_not_elementwise :
    ¬PreservesMeaning plainFunctions plainMatch emptyScope .elementwise
      ∧ ¬PreservesMeaning plainFunctions plainMatch emptyScope
          { Reading.byDesign plainFunctions with onEmpty := Reading.elementwise.onEmpty }
      ∧ ¬PreservesMeaning plainFunctions plainMatch emptyScope
          { Reading.byDesign plainFunctions with asString := Reading.elementwise.asString } := by
  have context : MacroEvaluationContext := .root none [] fun _ => none
  have hname : text "U" ≠ [] := by decide
  refine ⟨fun h => ?_, fun h => ?_, fun h => ?_⟩
  · have heq := eval_eq_of_preserves defaultOfUndeclared_wellFormed h context
    simp [defaultOfUndeclared, ListText.eval, moreValue, Element.eval, groupsValue, Parts.eval, Operators.apply,
      referenceValue, Fragment.eval, literalValue, hname, scopeValues_undeclared, Reading.elementwise,
      Reading.byDesign, MacroEvaluationReplacementOperator.applyToEmptyResult] at heq
  · have heq := eval_eq_of_preserves defaultOfUndeclared_wellFormed h context
    simp [defaultOfUndeclared, ListText.eval, moreValue, Element.eval, groupsValue, Parts.eval, Operators.apply,
      referenceValue, Fragment.eval, literalValue, hname, scopeValues_undeclared, Reading.elementwise,
      Reading.byDesign, MacroEvaluationReplacementOperator.applyToEmptyResult] at heq
  · have heq := eval_eq_of_preserves quotedUndeclared_wellFormed h context
    simp [quotedUndeclared, ListText.eval, moreValue, Element.eval, groupsValue, quotedValue, Parts.eval,
      Parts.isEmpty, Operators.apply, referenceValue, Fragment.eval, literalValue, hname, scopeValues_undeclared,
      Reading.elementwise, Reading.byDesign] at heq

end Elementwise

end Builra.Macro
