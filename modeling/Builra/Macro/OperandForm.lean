import Builra.Macro.Meaning
import Builra.Macro.OperandCode

namespace Builra.Macro

open List Machine Operand OperandOperators

/-!
# `Macro.OperandForm` — what a replacement operator is handed

The operand of `$(M:op=R)` is parsed to be evaluated as a string only where the reference around it is. Elsewhere the
references of `R` are evaluated as lists, and the operator is handed their elements joined without separators. The
operand is the string form of `R` in every scope exactly where the reference is evaluated as a string or `R` holds no
reference.
-/

open Splice MacroEvaluationResultBuilder

/-! ## Values -/

section Values

-- `values name preservesOriginal asString` are the elements of what a name stands for
variable (fns : StringFunctions) (values : Text → Bool → Bool → List Text)

mutual

def Operand.eval (asString : Bool) : Operand → List Text
  | .nothing => []
  | .literal s rest => splice [s] (rest.eval asString)
  | .dollar rest => splice [[ascii '$']] (rest.eval asString)
  | .reference preservesOriginal name operators rest =>
    splice (operators.apply asString (values (name.eval true).flatten preservesOriginal asString))
      (rest.eval asString)

def OperandOperators.apply (asString : Bool) : OperandOperators → List Text → List Text
  | .done, elements => elements
  | .retrieval op rest, elements => rest.apply asString (elements.map (op.apply fns))
  | .replacement op operand rest, elements =>
    rest.apply asString
      (if elements = [] then (Reading.byDesign fns).onEmpty op (operand.eval asString).flatten
        else elements.map fun element => op.apply fns element (operand.eval asString).flatten)

end

end Values

/-! ## Runs -/

section Runs

variable {β : Type} {fns : StringFunctions} {resolve : Text → Resolution β}
  {evaluate : β → Bool → MacroEvaluationResultBuilder → Except Halt MacroEvaluationResultBuilder} {always : Bool}
  {elements : β → Bool → List Text}

mutual

/-- The code of an operand adds its elements. -/
theorem run_operand (hev : Computes resolve evaluate elements) (asString : Bool) (m : Machine) :
    (t : Operand) → runInstructions fns resolve evaluate always (t.compile asString) m
      = .ok (m.add (t.eval fns (lookups resolve elements) (asString || always)))
  | .nothing => by
    rw [Operand.compile, Operand.eval, Machine.add_nil]
    exact runInstructions_nil ..
  | .literal s rest => by
    rw [Operand.compile, Operand.eval, run_cons (execute_appendLiteral s m), run_operand hev asString _ rest,
      Machine.add_add]
  | .dollar rest => by
    rw [Operand.compile, Operand.eval, run_append (run_dollarCode m), run_operand hev asString _ rest,
      Machine.add_add]
  | .reference preservesOriginal name operators rest => by
    obtain ⟨stack, rb⟩ := m
    have hname := run_operand hev true ⟨{} :: {} :: stack, rb⟩ name
    rw [add_cons, addElements_empty, Bool.true_or] at hname
    obtain ⟨pending, hlookup⟩ := execute_lookup fns always hev asString preservesOriginal
      (name.eval fns (lookups resolve elements) true) stack rb
    obtain ⟨pending', hoperators⟩ := run_operandOperators hev asString (lookups resolve elements
      (name.eval fns (lookups resolve elements) true).flatten preservesOriginal (asString || always)) pending stack rb
      operators
    rw [Operand.compile, Operand.eval]
    simp only [cons_append, append_assoc, nil_append]
    rw [run_cons rfl, run_cons rfl, run_append hname, run_cons hlookup, run_append hoperators, run_cons rfl,
      ← add_add, ← run_operand hev asString _ rest]
    rfl

theorem run_operandOperators (hev : Computes resolve evaluate elements) (asString : Bool) (xs : List Text)
    (pending : Bool) (stack : List MacroEvaluationResultBuilder) (rb : MacroEvaluationResultBuilder) :
    (operators : OperandOperators) → ∃ pending', runInstructions fns resolve evaluate always
        (operators.compile asString) ⟨ofElements xs pending :: stack, rb⟩
      = .ok ⟨ofElements (operators.apply fns (lookups resolve elements) (asString || always) xs) pending' :: stack, rb⟩
  | .done => ⟨pending, rfl⟩
  | .retrieval op rest => by
    obtain ⟨pending', hrest⟩ := run_operandOperators hev asString (xs.map (op.apply fns))
      (decide (xs.map (op.apply fns) ≠ [])) stack rb rest
    refine ⟨pending', ?_⟩
    rw [OperandOperators.compile, run_cons (execute_retrieval op xs pending stack rb), hrest, OperandOperators.apply]
  | .replacement op operand rest => by
    obtain ⟨middle, hreplace⟩ := execute_replacement fns resolve evaluate always op
      (operand.eval fns (lookups resolve elements) (asString || always)) xs pending stack rb
    obtain ⟨pending', hrest⟩ := run_operandOperators hev asString _ middle stack rb rest
    refine ⟨pending', ?_⟩
    rw [OperandOperators.compile, cons_append, run_cons rfl, run_append (run_operand hev asString _ operand),
      add_cons, addElements_empty, run_cons hreplace, hrest, apply]

end

end Runs

/-! ## The string form -/

section Handed

variable (fns : StringFunctions) (mfns : MatchFunctions) (scope : MacroEvaluationScope)

variable (context : MacroEvaluationContext)

/-- In this context, the code of an operand leaves its string form in the buffer that the operator takes: what the
code computes as a program of its own that is evaluated as a string. -/
def HandsStringForm (fuel : Nat) (always : Bool) (code : List EvalInstr) : Prop :=
  ∀ sb stack rb, ∃ operand b,
    runInstructions fns (resolveInContext mfns scope context)
        (fun value asString b => executeInContext fns mfns scope false fuel value.1 value.2.evalProgram asString b) always
        (.beginSubresult :: code) ⟨sb :: stack, rb⟩ = .ok ⟨operand :: sb :: stack, rb⟩
      ∧ executeInContext fns mfns scope false (fuel + 1) context (.ofInstructions code) true {} = .ok b
      ∧ operand.buildString = b.buildString

/-- What names stand for in a context. -/
noncomputable def contextValues : Text → Bool → Bool → List Text :=
  lookups (resolveInContext mfns scope context) fun v mode => directValue fns mfns scope (.byDesign fns) v.1 v.2 mode

/-- The operator is handed the elements of the operand, joined. -/
theorem handsStringForm_iff {context : MacroEvaluationContext} {fuel : Nat}
    (hfuel : assignmentsLeft scope context ≤ fuel) (always asString : Bool) (t : Operand) :
    HandsStringForm fns mfns scope context fuel always (t.compile asString)
      ↔ (t.eval fns (contextValues fns mfns scope context) (asString || always)).flatten
        = (t.eval fns (contextValues fns mfns scope context) true).flatten := by
  have hev := computes_directValue fns mfns scope hfuel
  have hform : executeInContext fns mfns scope false (fuel + 1) context (.ofInstructions (t.compile asString)) true {}
      = .ok (ofElements (t.eval fns (contextValues fns mfns scope context) true) false) := by
    have hrun : runInstructions fns _ _ true (t.compile asString) ⟨[], {}⟩ = _ := run_operand hev asString ⟨[], {}⟩ t
    rw [Bool.or_true] at hrun
    rw [executeInContext, executeProgram_ofInstructions, hrun, ← addElements_empty]
    rfl
  have hhanded : ∀ sb stack rb, runInstructions fns (resolveInContext mfns scope context)
      (fun value asString b => executeInContext fns mfns scope false fuel value.1 value.2.evalProgram asString b) always
      (.beginSubresult :: t.compile asString) ⟨sb :: stack, rb⟩
      = .ok ⟨ofElements (t.eval fns (contextValues fns mfns scope context) (asString || always)) false :: sb :: stack,
          rb⟩ := by
    intro sb stack rb
    rw [run_cons rfl, run_operand hev asString _ t, add_cons, addElements_empty]
    rfl
  constructor
  · intro h
    obtain ⟨operand, b, hrun, hprogram, hsame⟩ := h {} [] {}
    rw [hhanded] at hrun
    rw [hform] at hprogram
    cases hrun
    cases hprogram
    exact hsame
  · intro hsame sb stack rb
    exact ⟨_, _, hhanded sb stack rb, hform, hsame⟩

/-- Without references the mode does not matter. -/
theorem Operand.eval_of_not_refers (values : Text → Bool → Bool → List Text) (a b : Bool) : (t : Operand) →
    t.refers = false → t.eval fns values a = t.eval fns values b
  | .nothing, _ => by rw [eval, eval]
  | .literal s rest, h => by rw [eval, eval, eval_of_not_refers values a b rest h]
  | .dollar rest, h => by rw [eval, eval, eval_of_not_refers values a b rest h]
  | .reference .., h => by cases h

end Handed

/-! ## A scope in which the mode matters

Every name in an operand stands for the list of `a` and `b`. No operator that changes nothing else makes the joined
elements `ab` the same as the string form `a b`: the string form is longer, and where `not` is applied the list has
one more answer. -/

section Differing

def listElements (asString : Bool) : List Text := if asString then [text "a b"] else [text "a", text "b"]

def listValues (_name : Text) (_preservesOriginal asString : Bool) : List Text := listElements asString

mutual

/-- The names that are looked up for an operand when every name stands for the list. -/
def Operand.names : Operand → List Text
  | .nothing => []
  | .literal _ rest => rest.names
  | .dollar rest => rest.names
  | .reference _ name operators rest =>
    (name.eval plainFunctions listValues true).flatten :: (name.names ++ operators.names ++ rest.names)

def OperandOperators.names : OperandOperators → List Text
  | .done => []
  | .retrieval _ rest => rest.names
  | .replacement _ operand rest => operand.names ++ rest.names

end

section Congruence

variable {values : Text → Bool → Bool → List Text}

mutual

theorem eval_of_names (asString : Bool) : (t : Operand) →
    (∀ n ∈ t.names, ∀ preservesOriginal mode, values n preservesOriginal mode = listElements mode) →
    t.eval plainFunctions values asString = t.eval plainFunctions listValues asString
  | .nothing, _ => by rw [eval, eval]
  | .literal s rest, h => by rw [eval, eval, eval_of_names asString rest h]
  | .dollar rest, h => by rw [eval, eval, eval_of_names asString rest h]
  | .reference preservesOriginal name operators rest, h => by
    simp only [Operand.names, mem_cons, mem_append] at h
    have hname := eval_of_names true name fun n hn => h n (.inr (.inl (.inl hn)))
    have hvalue := h _ (.inl rfl) preservesOriginal asString
    rw [eval, eval, hname, hvalue, eval_of_names asString rest fun n hn => h n (.inr (.inr hn)),
      apply_of_names asString _ operators fun n hn => h n (.inr (.inl (.inr hn)))]
    rfl

theorem apply_of_names (asString : Bool) (xs : List Text) : (operators : OperandOperators) →
    (∀ n ∈ operators.names, ∀ preservesOriginal mode, values n preservesOriginal mode = listElements mode) →
    operators.apply plainFunctions values asString xs = operators.apply plainFunctions listValues asString xs
  | .done, _ => by rw [apply, apply]
  | .retrieval op rest, h => by
    rw [apply, apply, apply_of_names asString _ rest h]
  | .replacement op operand rest, h => by
    simp only [OperandOperators.names, mem_append] at h
    rw [apply, apply, eval_of_names asString operand fun n hn => h n (.inl hn),
      apply_of_names asString _ rest fun n hn => h n (.inr hn)]

end

end Congruence

/-! ### What the operators make of the list -/

/-- What `not` answers. -/
def IsAnswer (s : Text) : Prop := s = text "YES" ∨ s = text "NO"

theorem retrieve_plain (op : MacroEvaluationRetrievalOperator) {s : Text} (h : s.head? ≠ some (ascii '/')) :
    op.apply plainFunctions s
      = if op = .not then if s ≠ text "YES" then text "YES" else text "NO" else s := by
  cases op <;> simp [MacroEvaluationRetrievalOperator.apply, plainFunctions, h]

theorem replace_plain (op : MacroEvaluationReplacementOperator) {s : Text} (h : s ≠ []) (operand : Text) :
    op.apply plainFunctions s operand = s := by
  cases op <;> simp [MacroEvaluationReplacementOperator.apply, plainFunctions, h]

/-- `not` is among the operators. -/
def OperandOperators.negates : OperandOperators → Bool
  | .done => false
  | .retrieval op rest => decide (op = .not) || rest.negates
  | .replacement _ _ rest => rest.negates

theorem apply_answers (asString : Bool) : (operators : OperandOperators) → ∀ {s : Text}, IsAnswer s → ∀ n,
    ∃ s', IsAnswer s' ∧ operators.apply plainFunctions listValues asString (List.replicate (n + 1) s)
      = List.replicate (n + 1) s'
  | .done, s, hs, n => ⟨s, hs, by rw [apply]⟩
  | .retrieval op rest, s, hs, n => by
    have hhead : s.head? ≠ some (ascii '/') := by rcases hs with rfl | rfl <;> decide
    have hanswer : IsAnswer (op.apply plainFunctions s) := by
      rw [retrieve_plain op hhead]
      split
      · rcases hs with rfl | rfl
        · exact .inr rfl
        · exact .inl rfl
      · exact hs
    obtain ⟨s', hs', happly⟩ := apply_answers asString rest hanswer n
    exact ⟨s', hs', by rw [apply, map_replicate, happly]⟩
  | .replacement op operand rest, s, hs, n => by
    have hne : s ≠ [] := by rcases hs with rfl | rfl <;> decide
    obtain ⟨s', hs', happly⟩ := apply_answers asString rest hs n
    refine ⟨s', hs', ?_⟩
    rw [apply, if_neg (by simp), map_replicate, replace_plain op hne, happly]

/-- The operators keep the list, or `not` makes each element an answer. -/
theorem apply_listElements (asString : Bool) : (operators : OperandOperators) →
    operators.negates = false
        ∧ operators.apply plainFunctions listValues asString (listElements asString) = listElements asString
      ∨ operators.negates = true ∧ ∃ s, IsAnswer s
        ∧ operators.apply plainFunctions listValues asString (listElements asString)
          = List.replicate (listElements asString).length s
  | .done => .inl ⟨rfl, by rw [apply]⟩
  | .retrieval op rest => by
    rw [apply, negates]
    by_cases hop : op = .not
    · obtain ⟨n, hn⟩ : ∃ n, (listElements asString).length = n + 1 := by cases asString <;> exact ⟨_, rfl⟩
      have hmap : (listElements asString).map (op.apply plainFunctions)
          = List.replicate (listElements asString).length (text "YES") := by
        subst hop
        cases asString <;> rfl
      obtain ⟨s, hs, happly⟩ := apply_answers asString rest (.inl rfl) n
      rw [hmap, hn, happly]
      exact .inr ⟨by simp [hop], s, hs, rfl⟩
    · have hmap : (listElements asString).map (op.apply plainFunctions) = listElements asString := by
        conv_rhs => rw [← map_id (listElements asString)]
        refine map_congr_left fun s hs => ?_
        have hhead : s.head? ≠ some (ascii '/') := by
          revert s
          cases asString <;> decide
        rw [retrieve_plain op hhead, if_neg hop]
        rfl
      rw [hmap]
      simpa [hop] using apply_listElements asString rest
  | .replacement op operand rest => by
    have hne : listElements asString ≠ [] := by cases asString <;> decide
    have hmap : (listElements asString).map (fun element =>
        op.apply plainFunctions element (operand.eval plainFunctions listValues asString).flatten)
        = listElements asString := by
      conv_rhs => rw [← map_id (listElements asString)]
      refine map_congr_left fun s hs => ?_
      have hne : s ≠ [] := by
        revert s
        cases asString <;> decide
      exact replace_plain op hne _
    rw [apply, negates, if_neg hne, hmap]
    exact apply_listElements asString rest

/-! ### The two forms differ -/

/-- The letters that every answer has one of, and the list none. -/
def letters (s : Text) : Nat := s.countP fun c => decide (c = ascii 'Y' ∨ c = ascii 'N')

theorem letters_append (s s' : Text) : letters (s ++ s') = letters s + letters s' := countP_append

theorem letters_answers {s : Text} (h : IsAnswer s) (n : Nat) : letters (List.replicate n s).flatten = n := by
  have hone : letters s = 1 := by rcases h with rfl | rfl <;> decide
  induction n with
  | zero => rfl
  | succ n ih => rw [replicate_succ, flatten_cons, letters_append, ih, hone, Nat.add_comm]

/-- `not` is applied to a reference of the operand. -/
def Operand.negates : Operand → Bool
  | .nothing => false
  | .literal _ rest => rest.negates
  | .dollar rest => rest.negates
  | .reference _ _ operators rest => operators.negates || rest.negates

/-- Each mode's text of an operand in which every name stands for the list. -/
def Operand.listText (asString : Bool) (t : Operand) : Text := (t.eval plainFunctions listValues asString).flatten

theorem Operand.length_listText : (t : Operand) → t.negates = false →
    (t.listText false).length + t.refers.toNat ≤ (t.listText true).length
  | .nothing, _ => by simp [listText, eval, refers]
  | .literal s rest, h => by
    have hrest := length_listText rest h
    simp only [listText, eval, flatten_splice, length_append, refers] at hrest ⊢
    omega
  | .dollar rest, h => by
    have hrest := length_listText rest h
    simp only [listText, eval, flatten_splice, length_append, refers] at hrest ⊢
    omega
  | .reference preservesOriginal name operators rest, h => by
    obtain ⟨hoperators, hnegates⟩ := Bool.or_eq_false_iff.mp h
    have hrest := length_listText rest hnegates
    have happly : ∀ asString, operators.apply plainFunctions listValues asString (listElements asString)
        = listElements asString := by
      intro asString
      rcases apply_listElements asString operators with ⟨-, happly⟩ | ⟨hnot, -⟩
      · exact happly
      · rw [hoperators] at hnot
        cases hnot
    have hshorter : (listElements false).flatten.length + 1 = (listElements true).flatten.length := by decide
    simp only [listText, eval, flatten_splice, length_append, listValues, happly, refers] at hrest ⊢
    have := rest.refers.toNat_le
    simp only [Bool.toNat_true]
    omega

theorem Operand.letters_listText : (t : Operand) →
    letters (t.listText true) + t.negates.toNat ≤ letters (t.listText false)
  | .nothing => by simp [listText, eval, negates]
  | .literal s rest => by
    have hrest := letters_listText rest
    simp only [listText, eval, flatten_splice, letters_append, negates] at hrest ⊢
    omega
  | .dollar rest => by
    have hrest := letters_listText rest
    simp only [listText, eval, flatten_splice, letters_append, negates] at hrest ⊢
    omega
  | .reference preservesOriginal name operators rest => by
    have hrest := letters_listText rest
    simp only [listText, eval, flatten_splice, letters_append, listValues, negates] at hrest ⊢
    have hvalue : letters (operators.apply plainFunctions listValues true (listElements true)).flatten
          + operators.negates.toNat
        ≤ letters (operators.apply plainFunctions listValues false (listElements false)).flatten := by
      rcases apply_listElements true operators with ⟨hnot, happly⟩ | ⟨hnot, s, hs, happly⟩ <;>
        rcases apply_listElements false operators with ⟨hnot', happly'⟩ | ⟨hnot', s', hs', happly'⟩
      · rw [happly, happly', hnot]
        decide
      · rw [hnot] at hnot'
        cases hnot'
      · rw [hnot] at hnot'
        cases hnot'
      · rw [happly, happly', letters_answers hs, letters_answers hs', hnot]
        decide
    have hor : (operators.negates || rest.negates).toNat ≤ operators.negates.toNat + rest.negates.toNat := by
      cases operators.negates <;> cases rest.negates <;> decide
    omega

/-- The joined elements of an operand with a reference are not its string form. -/
theorem Operand.listText_ne {t : Operand} (h : t.refers = true) : t.listText false ≠ t.listText true := by
  intro hsame
  have hletters := t.letters_listText
  rw [hsame] at hletters
  cases hnegates : t.negates with
  | true =>
    rw [hnegates, Bool.toNat_true] at hletters
    omega
  | false =>
    have hlength := t.length_listText hnegates
    rw [hsame, h, Bool.toNat_true] at hlength
    omega

/-! ### A scope for it -/

def listMacro (name : Text) (h : name ≠ []) : MacroDeclaration := ⟨0, name, .stringList, h⟩

def listAssignment : MacroValueAssignment := ⟨parseLiteralStringList (text "a b") [text "a", text "b"], none⟩

def listRegistry (names : List Text) : List MacroDeclaration :=
  names.filterMap fun name => if h : name ≠ [] then some (listMacro name h) else none

/-- A scope in which these names are macros with the list as their value. -/
def listScope (names : List Text) : MacroEvaluationScope where
  table := ⟨.root (listRegistry names), (listRegistry names).map fun decl => (decl, [listAssignment])⟩
  conditionParameterValues _ := none

/-- The evaluation of a macro that has the list as its value behind the one under evaluation. -/
def listContext : MacroEvaluationContext :=
  .root (some (listMacro (text "LIST") (by decide))) [listAssignment, listAssignment] fun _ => none

variable {name : Text} {names : List Text}

theorem mem_listRegistry (hmem : name ∈ names) (hne : name ≠ []) :
    listMacro name hne ∈ listRegistry names :=
  mem_filterMap.mpr ⟨name, hmem, dif_pos hne⟩

theorem lookupMacro_listScope {decl : MacroDeclaration} (h : decl ∈ listRegistry names) :
    (listScope names).table.lookupMacro decl = [listAssignment] := by
  unfold MacroValueAssignmentTable.lookupMacro listScope
  cases hfind : ((listRegistry names).map fun decl => (decl, [listAssignment])).find? fun entry => entry.1 = decl with
  | none =>
    have hnone := List.find?_eq_none.mp hfind (decl, [listAssignment]) (mem_map_of_mem h)
    simp at hnone
  | some entry =>
    obtain ⟨decl', -, rfl⟩ := mem_map.mp (mem_of_find?_eq_some hfind)
    rfl

theorem resolve_listScope (hmem : name ∈ names) (hne : name ≠ []) :
    ∃ nested, resolveInContext plainMatch (listScope names) listContext name = .value (nested, listAssignment.expression) := by
  have hdecl : ∃ decl, lookupMacroInContext plainMatch (listScope names) listContext name = some decl
      ∧ searchedAssignments (listScope names) decl listContext = [listAssignment] := by
    unfold lookupMacroInContext
    rw [if_neg hne]
    split
    · exact ⟨_, rfl, rfl⟩
    · have hlookup : (listScope names).table.macroNamespace.lookupMacroDeclaration plainMatch name
          = (listRegistry names).find? fun decl => decl.name == name := rfl
      rw [hlookup]
      cases hfind : (listRegistry names).find? fun decl => decl.name == name with
      | none =>
        have hnone := List.find?_eq_none.mp hfind _ (mem_listRegistry hmem hne)
        simp [listMacro] at hnone
      | some decl =>
        refine ⟨decl, rfl, ?_⟩
        unfold listContext searchedAssignments
        split
        · rfl
        · exact lookupMacro_listScope (mem_of_find?_eq_some hfind)
  obtain ⟨decl, hlookup, hsearched⟩ := hdecl
  refine ⟨.nested decl [listAssignment] listContext, ?_⟩
  unfold resolveInContext nextValueForMacro
  rw [hlookup]
  simp only [hsearched]
  rfl

/-- The names stand for the list. -/
theorem contextValues_listScope (hmem : name ∈ names) (hne : name ≠ []) (preservesOriginal asString : Bool) :
    contextValues plainFunctions plainMatch (listScope names) listContext name preservesOriginal asString
      = listElements asString := by
  obtain ⟨nested, hresolve⟩ := resolve_listScope hmem hne
  obtain ⟨pending, hrun⟩ := executeInContext_directValue plainFunctions plainMatch (listScope names) _ nested
    listAssignment.expression asString (Nat.lt_succ_self _)
  have hlist : ∀ n, executeInContext plainFunctions plainMatch (listScope names) false (n + 1) nested
      listAssignment.expression.evalProgram asString {} = .ok (ofElements (listElements asString) false) := by
    intro n
    cases asString <;> rfl
  rw [hlist] at hrun
  have hvalue := congrArg buildStringList (Except.ok.inj hrun)
  simp only [buildStringList, enumerate_ofElements] at hvalue
  show lookedUp _ name preservesOriginal asString (resolveInContext _ _ _ name) = _
  rw [hresolve]
  exact hvalue.symm

theorem eval_ne_nil_of_not_blank : (t : Operand) → t.isBlank = false →
    (t.eval plainFunctions listValues true).flatten ≠ []
  | .nothing, h => by cases h
  | .literal s rest, h => by
    rw [eval, flatten_splice]
    intro hnil
    obtain ⟨hs, hrest⟩ := append_eq_nil_iff.mp hnil
    have hs : s = [] := by simpa using hs
    rw [isBlank, hs, isEmpty_nil, Bool.true_and] at h
    exact eval_ne_nil_of_not_blank rest h hrest
  | .dollar rest, _ => by simp [eval]
  | .reference preservesOriginal name operators rest, _ => by
    rw [eval, flatten_splice]
    intro hnil
    have hvalue := (append_eq_nil_iff.mp hnil).1
    rw [listValues] at hvalue
    rcases apply_listElements true operators with ⟨-, happly⟩ | ⟨-, s, hs, happly⟩
    · rw [happly] at hvalue
      exact absurd hvalue (by decide)
    · have hletters := letters_answers hs (listElements true).length
      rw [← happly, hvalue] at hletters
      exact absurd hletters (by decide)

mutual

theorem names_ne_nil : (t : Operand) → t.Named → ∀ n ∈ t.names, n ≠ []
  | .nothing, _, n, hn => by cases hn
  | .literal s rest, h, n, hn => names_ne_nil rest h n hn
  | .dollar rest, h, n, hn => names_ne_nil rest h n hn
  | .reference _ name operators rest, ⟨hblank, hname, hoperators, hrest⟩, n, hn => by
    simp only [Operand.names, mem_cons, mem_append] at hn
    rcases hn with rfl | (hn | hn) | hn
    · exact eval_ne_nil_of_not_blank name hblank
    · exact names_ne_nil name hname n hn
    · exact operatorNames_ne_nil operators hoperators n hn
    · exact names_ne_nil rest hrest n hn

theorem operatorNames_ne_nil : (operators : OperandOperators) → operators.Named → ∀ n ∈ operators.names, n ≠ []
  | .done, _, n, hn => by cases hn
  | .retrieval _ rest, h, n, hn => operatorNames_ne_nil rest h n hn
  | .replacement _ operand rest, ⟨hoperand, hrest⟩, n, hn => by
    rcases mem_append.mp hn with hn | hn
    · exact names_ne_nil operand hoperand n hn
    · exact operatorNames_ne_nil rest hrest n hn

end

/-- With a reference in it that is evaluated as a list, an operand is not its string form in the scope of its names. -/
theorem not_handsStringForm {t : Operand} (hnamed : t.Named) (hrefers : t.refers = true) {fuel : Nat}
    (hfuel : assignmentsLeft (listScope t.names) listContext ≤ fuel) :
    ¬HandsStringForm plainFunctions plainMatch (listScope t.names) listContext fuel false (t.compile false) := by
  rw [handsStringForm_iff plainFunctions plainMatch (listScope t.names) hfuel]
  have hvalues : ∀ n ∈ t.names, ∀ preservesOriginal mode,
      contextValues plainFunctions plainMatch (listScope t.names) listContext n preservesOriginal mode
        = listElements mode :=
    fun n hn => contextValues_listScope hn (names_ne_nil t hnamed n hn)
  rw [eval_of_names _ t hvalues, eval_of_names _ t hvalues]
  exact listText_ne hrefers

end Differing

/-! ## Replacement operators -/

/-- **Replacement operands are strings** in every scope exactly where the reference is evaluated as a string, or the
operand holds no reference. `evalAsString` is the flag that the parser was given for the reference (set in quotes and
in strings), and the levels are those of the delegate (raised in the names of macros); `always` tells whether the
expression around it is evaluated as a string. That it suffices holds of every operand in which no replacement
operator is unknown; that nothing else does, of those that are parsed without an error. -/
theorem operand_isStringForm {string operand rest : Text} {fuel : Nat} {evalAsString : Bool} {opening closeDelim : UInt8}
    {op : MacroEvaluationReplacementOperator} {calls : List Callback}
    (hclose : getClosingDelimiter opening = some closeDelim)
    (hparse : parseOperator string (parseSubstitutionSubexpressionFragment string fuel evalAsString closeDelim)
      closeDelim (some op.name) (ascii '=' :: (operand ++ rest)) = .ok (calls, rest))
    (hknown : KnownOperators calls) {levels : NestingLevels} (hlevels : levels.Nonneg) (always : Bool) :
    ∃ code, emit levels calls = .beginSubresult :: code ++ [.applyReplacementOperator op]
      ∧ (always = true ∨ evalAsString = true ∨ levels.inString = true ∨ mentionsMacro operand = false →
        ∀ fns mfns scope context n, assignmentsLeft scope context ≤ n →
          HandsStringForm fns mfns scope context n always code)
      ∧ (ErrorFree string calls →
        (∀ fns mfns scope context n, assignmentsLeft scope context ≤ n →
          HandsStringForm fns mfns scope context n always code) →
        always = true ∨ evalAsString = true ∨ levels.inString = true ∨ mentionsMacro operand = false) := by
  have hdelim := closing_ne_equals hclose
  obtain ⟨operandCalls, hoperand, rfl⟩ := parseOperator_replacement hdelim hparse
  obtain ⟨-, hoperandKnown⟩ := hknown.replacement
  obtain ⟨t, ht, -⟩ := (parse_codes string fuel).2.1 evalAsString closeDelim _ operandCalls rest hdelim hoperand
    hoperandKnown
  obtain ⟨covered, hcovered, hmentions⟩ := fragment_mentions hoperand
  obtain rfl : operand = covered := append_cancel_right hcovered
  have hrefers : t.refers = mentionsMacro operand := Bool.eq_iff_iff.mpr (ht.refers.trans hmentions)
  rw [← hrefers]
  refine ⟨t.compile (evalAsString || levels.inString), ?_, ?_, ?_⟩
  · exact (compilesTo_replacementCalls (replacement_ofName op) ht.compiles rest levels hlevels).1
  · intro hcondition fns mfns scope context n hn
    rw [handsStringForm_iff fns mfns scope hn]
    have hmode : ((evalAsString || levels.inString) || always) = true ∨ t.refers = false := by
      rcases hcondition with h | h | h | h
      · exact .inl (by simp [h])
      · exact .inl (by simp [h])
      · exact .inl (by simp [h])
      · exact .inr h
    rcases hmode with hmode | hnone
    · rw [hmode]
    · rw [eval_of_not_refers fns _ _ true t hnone]
  · intro hfree hall
    by_contra hnot
    simp only [not_or, Bool.not_eq_true, Bool.not_eq_false] at hnot
    obtain ⟨hlist, hflag, hlevel, hreference⟩ := hnot
    have hnamed := ht.named (hfree.of_subset (operandCalls_subset string op.name operandCalls rest))
    have hhands := hall plainFunctions plainMatch (listScope t.names) listContext _ (Nat.le_refl _)
    rw [hlist, hflag, hlevel] at hhands
    exact not_handsStringForm hnamed hreference (Nat.le_refl _) hhands

/-- The callbacks for the operator of `$(M:default=$(L))`. -/
def defaultCalls (evalAsString : Bool) : List Callback :=
  [.foundStartOfReplacementOperator (text "default"), .foundStartOfSubstitutionSubexpression evalAsString,
    .foundStartOfMacroName, .foundLiteralStringFragment (text "L"), .foundEndOfMacroName true,
    .foundEndOfSubstitutionSubexpression evalAsString, .foundEndOfReplacementOperator (text "default") 16]

theorem knownOperators_default (evalAsString : Bool) : KnownOperators (defaultCalls evalAsString) := by
  intro operatorName position hmem
  simp only [defaultCalls, mem_cons, reduceCtorEq, false_or, not_mem_nil, or_false,
    Callback.foundEndOfReplacementOperator.injEq] at hmem
  rw [hmem.1]
  decide

/-- In quotes, the operand of `$(M:default=$(L))` is the string form of `$(L)`. -/
theorem operand_isStringForm_quoted : ∃ code,
    emit {} (defaultCalls true) = .beginSubresult :: code ++ [.applyReplacementOperator .default]
      ∧ HandsStringForm plainFunctions plainMatch (listScope [text "L"]) listContext
          (assignmentsLeft (listScope [text "L"]) listContext) false code := by
  have hparse : parseOperator (text "$(M:default=$(L))")
      (parseSubstitutionSubexpressionFragment (text "$(M:default=$(L))") 20 true (ascii ')')) (ascii ')')
      (some MacroEvaluationReplacementOperator.default.name) (ascii '=' :: (text "$(L)" ++ text ")"))
      = .ok (defaultCalls true, text ")") := by decide +kernel
  obtain ⟨code, hemit, hhands, -⟩ := operand_isStringForm (show getClosingDelimiter (ascii '(') = some (ascii ')') by decide)
    hparse (knownOperators_default true) (show ({} : NestingLevels).Nonneg from ⟨Int.le_refl 0, Int.le_refl 0⟩) false
  exact ⟨code, hemit, hhands (.inr (.inl rfl)) _ _ _ _ _ (Nat.le_refl _)⟩

/-- In a list, it is the elements of `L` joined: `ab` where the string form is `a b`. -/
theorem operand_joins_list :
    parseOperator (text "$(M:default=$(L))")
        (parseSubstitutionSubexpressionFragment (text "$(M:default=$(L))") 20 false (ascii ')')) (ascii ')')
        (some MacroEvaluationReplacementOperator.default.name) (ascii '=' :: (text "$(L)" ++ text ")"))
      = .ok (defaultCalls false, text ")")
      ∧ KnownOperators (defaultCalls false)
      ∧ ∃ code, emit {} (defaultCalls false) = .beginSubresult :: code ++ [.applyReplacementOperator .default]
        ∧ ¬HandsStringForm plainFunctions plainMatch (listScope [text "L"]) listContext
            (assignmentsLeft (listScope [text "L"]) listContext) false code := by
  have hnamed : (Operand.reference false (.literal (text "L") .nothing) .done .nothing).Named :=
    ⟨rfl, trivial, trivial, trivial⟩
  have hhands := not_handsStringForm hnamed rfl (Nat.le_refl _)
  exact ⟨by decide +kernel, knownOperators_default false, _, rfl, hhands⟩

end Builra.Macro
