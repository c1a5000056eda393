import Builra.Macro.Syntax

namespace Builra.Macro

open List Machine

/-!
# `Macro.Execution` — the code of a syntax tree computes its elements

`compile` gives the instructions for each form of tree. A buffer stands for a list of elements (`ofElements`);
running the code of a tree adds the elements of the tree to the buffer on top of the stack (`addElements`), and
leaves the stack below as it was. Adding one list after another is adding the two spliced, so the code of
neighbouring parts composes the way their values do.
-/

open Splice

/-! ## Buffers as lists of elements -/

namespace MacroEvaluationResultBuilder

/-- The buffer with these elements. -/
def ofElements (elements : List Text) (pending : Bool) : MacroEvaluationResultBuilder where
  accumulatedStringUTF8 := elements.flatten
  listElementSeparators := marks 0 elements
  needsListElementSeparator := pending
  hasHadAnyTextAppended := decide (elements ≠ [])

variable (b : MacroEvaluationResultBuilder)

variable (elements : List Text)

/-- Add the elements of a list to a buffer, the first one glued to its last unless a separator is pending. -/
def addElements : MacroEvaluationResultBuilder :=
  b.appendContentsOfResultBuilder (ofElements elements false)

theorem ofElements_nil : ofElements [] false = {} := by
  rfl

@[simp]
theorem addElements_nil : b.addElements [] = b := by
  rfl

variable (pending : Bool)

/-- A pending separator of the other buffer makes no difference. -/
theorem appendContents_ofElements :
    b.appendContentsOfResultBuilder (ofElements elements pending) = b.addElements elements := by
  rfl

theorem append_eq_addElements (s : Text) :
    b.append s = b.addElements [s] := by
  simp [append, addElements, appendContentsOfResultBuilder, ofElements]

/-- A list that is not empty is added after the pending separator, if there is one. -/
theorem addElements_of_ne_nil {xs : List Text} (h : xs ≠ []) :
    b.addElements xs =
      { accumulatedStringUTF8 := b.accumulatedStringUTF8 ++ xs.flatten
        listElementSeparators := b.applyPendingListElementSeparatorIfNeeded.listElementSeparators
          ++ marks b.accumulatedStringUTF8.length xs
        needsListElementSeparator := false
        hasHadAnyTextAppended := true } := by
  cases hpending : b.needsListElementSeparator <;>
    simp [addElements, appendContentsOfResultBuilder, ofElements, h, map_add_marks,
      applyPendingListElementSeparatorIfNeeded, hpending]

/-- Adding one list after another adds the two spliced. -/
theorem addElements_addElements (xs ys : List Text) :
    (b.addElements xs).addElements ys = b.addElements (splice xs ys) := by
  by_cases hx : xs = []
  · simp [hx]
  · by_cases hy : ys = []
    · simp [hy]
    · have hne : splice xs ys ≠ [] := by simp [hx]
      rw [addElements_of_ne_nil b hx, addElements_of_ne_nil _ hy, addElements_of_ne_nil b hne]
      simp [applyPendingListElementSeparatorIfNeeded, marks_splice]

theorem addElements_empty (xs : List Text) : ({} : MacroEvaluationResultBuilder).addElements xs
    = ofElements xs false := by
  by_cases hx : xs = []
  · simp [hx, ofElements_nil]
  · simp [addElements, appendContentsOfResultBuilder, ofElements, hx, applyPendingListElementSeparatorIfNeeded]

@[simp]
theorem enumerate_ofElements :
    (ofElements elements pending).enumerateListElementSubstrings = elements := by
  have hgo : ∀ last cuts, elements ≠ [] →
      enumerateListElementSubstrings.go (ofElements elements pending) last cuts
        = cut elements.flatten last cuts := by
    intro last cuts hne
    induction cuts generalizing last with
    | nil => simp [enumerateListElementSubstrings.go, cut, ofElements, hne]
    | cons c cuts ih =>
      rw [enumerateListElementSubstrings.go, cut, ih]
      rfl
  by_cases hne : elements = []
  · subst hne
    rfl
  · have hcut := cut_marks [] hne
    rw [nil_append, length_nil] at hcut
    unfold enumerateListElementSubstrings
    rw [hgo _ _ hne]
    exact hcut

@[simp]
theorem buildString_ofElements :
    (ofElements elements pending).buildString = elements.flatten := by
  rfl

@[simp]
theorem hasHadAnyTextAppended_ofElements :
    (ofElements elements pending).hasHadAnyTextAppended = decide (elements ≠ []) := by
  rfl

/-- The elements that an operator collects are kept apart. -/
theorem collect_ofElements (elements more : List Text) :
    more.foldl (fun nb element => (nb.append element).setNeedsListElementSeparator)
        (ofElements elements (decide (elements ≠ [])))
      = ofElements (elements ++ more) (decide (elements ++ more ≠ [])) := by
  induction more generalizing elements with
  | nil => simp
  | cons s more ih =>
    have hstep : ((ofElements elements (decide (elements ≠ []))).append s).setNeedsListElementSeparator
        = ofElements (elements ++ [s]) (decide (elements ++ [s] ≠ [])) := by
      by_cases hne : elements = []
      · simp [hne, append, setNeedsListElementSeparator, ofElements, applyPendingListElementSeparatorIfNeeded]
      · have hmarks := marks_append 0 hne (show [s] ≠ [] by simp)
        simp only [marks_singleton, Nat.zero_add] at hmarks
        simp [hne, append, setNeedsListElementSeparator, ofElements, applyPendingListElementSeparatorIfNeeded,
          hmarks]
    rw [foldl_cons, hstep, ih]
    simp

/-- Adding to a buffer of known elements. -/
theorem ofElements_addElements {elements : List Text} {pending : Bool} (hpending : pending = true → elements ≠ [])
    {xs : List Text} (h : xs ≠ []) :
    (ofElements elements pending).addElements xs
      = ofElements (if pending then elements ++ xs else splice elements xs) false := by
  rw [addElements_of_ne_nil _ h]
  cases pending with
  | false => simp [ofElements, applyPendingListElementSeparatorIfNeeded, marks_splice, h]
  | true =>
    simp [ofElements, applyPendingListElementSeparatorIfNeeded, marks_append 0 (hpending rfl) h, h]

theorem ofElements_setNeeds :
    (ofElements elements pending).setNeedsListElementSeparator
      = ofElements elements (pending || decide (elements ≠ [])) := by
  by_cases h : elements = [] <;> simp [setNeedsListElementSeparator, ofElements, h]

end MacroEvaluationResultBuilder

open MacroEvaluationResultBuilder

theorem collectElements_eq (elements : List Text) :
    collectElements elements = ofElements elements (decide (elements ≠ [])) := by
  simpa [ofElements_nil, collectElements] using collect_ofElements [] elements

namespace Machine

variable (m : Machine)

/-- Add elements to the buffer on top. -/
def add (elements : List Text) : Machine := m.modifyTop (·.addElements elements)

@[simp]
theorem add_nil : m.add [] = m := by
  obtain ⟨stack, rb⟩ := m
  cases stack <;> rfl

@[simp]
theorem add_add (xs ys : List Text) : (m.add xs).add ys = m.add (splice xs ys) := by
  obtain ⟨stack, rb⟩ := m
  cases stack <;> simp [add, modifyTop, addElements_addElements]

theorem add_cons (top : MacroEvaluationResultBuilder) (stack : List MacroEvaluationResultBuilder)
    (rb : MacroEvaluationResultBuilder) (xs : List Text) :
    (⟨top :: stack, rb⟩ : Machine).add xs = ⟨top.addElements xs :: stack, rb⟩ := by
  rfl

end Machine

/-! ## Code -/

def literalCode (s : Text) : List EvalInstr := if s = [] then [] else [.appendLiteral s]

/-- `$$`. -/
def dollarCode : List EvalInstr := [.beginSubresult, .appendLiteral [ascii '$'], .mergeSubresult]

/-- A bracketed reference, from the code of its name and of its operators. -/
def referenceCode (asString : Bool) (name operators : List EvalInstr) : List EvalInstr :=
  .beginSubresult :: .beginSubresult :: name ++ .evalNamedMacro asString false :: operators ++ [.mergeSubresult]

mutual

def Fragment.compile (asString : Bool) : Fragment → List EvalInstr
  | .literal s => literalCode s
  | .dollar s rest => literalCode s ++ dollarCode ++ rest.compile asString
  | .reference s name operators rest =>
    literalCode s ++ referenceCode asString (name.compile true) (operators.compile asString)
      ++ rest.compile asString

def Operators.compile (asString : Bool) : Operators → List EvalInstr
  | .done => []
  | .retrieval op rest => .applyRetrievalOperator op :: rest.compile asString
  | .replacement op operand rest =>
    .beginSubresult :: operand.compile asString ++ .applyReplacementOperator op :: rest.compile asString

end

/-- A part of a list element. The literal text after an escaped character starts with that character: `carry` is
the text between the mark and the part. -/
def Parts.compile (asString : Bool) (carry : Text) : Parts → List EvalInstr
  | .literal s => literalCode (carry ++ s)
  | .escaped s c rest =>
    literalCode (carry ++ s) ++ .appendStringFormOnlyLiteral [ascii '\\'] :: rest.compile asString [c]
  | .dollar s rest => literalCode (carry ++ s) ++ dollarCode ++ rest.compile asString []
  | .reference s name operators rest =>
    literalCode (carry ++ s) ++ referenceCode asString (name.compile true) (operators.compile asString)
      ++ rest.compile asString []

def quotedCode (quotes : Quotes) (inside : Parts) : List EvalInstr :=
  .appendStringFormOnlyLiteral [quotes.char]
    :: (if inside.isEmpty then [.appendLiteral []] else inside.compile true [])
    ++ [.appendStringFormOnlyLiteral [quotes.char]]

def groupsCode : List (Parts × Quotes × Parts) → List EvalInstr
  | [] => []
  | (parts, quotes, inside) :: groups =>
    parts.compile false [] ++ quotedCode quotes inside ++ groupsCode groups

def Element.compile (e : Element) : List EvalInstr := groupsCode e.groups ++ e.last.compile false []

/-- Whitespace that only stands in the string form. -/
def whitespaceCode (s : Text) : List EvalInstr := if s = [] then [] else [.appendStringFormOnlyLiteral s]

def moreCode : List (Text × Element) → List EvalInstr
  | [] => []
  | (whitespace, e) :: more => .setNeedsListSeparator whitespace :: e.compile ++ moreCode more

def ListText.compile : ListText → List EvalInstr
  | .blank whitespace => whitespaceCode whitespace
  | .elements leading first more trailing =>
    whitespaceCode leading ++ first.compile ++ moreCode more ++ whitespaceCode trailing

/-! ## Runs -/

section Runs

variable {β : Type} (fns : StringFunctions) (resolve : Text → Resolution β)
  (evaluate : β → Bool → MacroEvaluationResultBuilder → Except Halt MacroEvaluationResultBuilder)
  (always : Bool)

/-- The elements of what a name resolves to. -/
def resolvedValue (elements : β → Bool → List Text) (asString : Bool) : Resolution β → List Text
  | .value v => elements v asString
  | .noValue type => if type = .boolean ∨ type = .string then [[]] else []
  | .unknownMacro => []

/-- Evaluating a value into an empty buffer gives these elements. -/
def Computes (elements : β → Bool → List Text) : Prop :=
  ∀ name v, resolve name = .value v → ∀ asString,
    ∃ pending, evaluate v asString {} = .ok (ofElements (elements v asString) pending)

variable {fns resolve evaluate always} {elements : β → Bool → List Text}

/-- Run a first part of a list of instructions. -/
theorem run_append {is js : List EvalInstr} {m m' : Machine}
    (h : runInstructions fns resolve evaluate always is m = .ok m') :
    runInstructions fns resolve evaluate always (is ++ js) m
      = runInstructions fns resolve evaluate always js m' := by
  rw [runInstructions_append, h]
  rfl

theorem run_cons {i : EvalInstr} {is : List EvalInstr} {m m' : Machine}
    (h : executeInstruction fns resolve evaluate always m i = .ok m') :
    runInstructions fns resolve evaluate always (i :: is) m
      = runInstructions fns resolve evaluate always is m' := by
  rw [runInstructions_cons, h]
  rfl

theorem execute_appendLiteral (s : Text) (m : Machine) :
    executeInstruction fns resolve evaluate always m (.appendLiteral s) = .ok (m.add [s]) := by
  unfold executeInstruction add
  simp only [append_eq_addElements]

theorem execute_stringFormOnly (s : Text) (m : Machine) :
    executeInstruction fns resolve evaluate always m (.appendStringFormOnlyLiteral s)
      = .ok (m.add (if always then [s] else [])) := by
  unfold executeInstruction
  cases always
  · simp
  · simp only [if_true, add, append_eq_addElements]

theorem run_literalCode (s : Text) (m : Machine) :
    runInstructions fns resolve evaluate always (literalCode s) m = .ok (m.add (literalValue s)) := by
  unfold literalCode literalValue
  split
  · simp
  · rw [run_cons (execute_appendLiteral s m)]
    rfl

theorem run_dollarCode (m : Machine) :
    runInstructions fns resolve evaluate always dollarCode m = .ok (m.add [[ascii '$']]) := by
  obtain ⟨stack, rb⟩ := m
  unfold dollarCode
  rw [run_cons rfl, run_cons (execute_appendLiteral _ _), add_cons, addElements_empty, run_cons rfl]
  rfl

/-- The elements of what a name resolves to. A reference without brackets to nothing is kept as it is. -/
def lookedUp (elements : β → Bool → List Text) (name : Text) (preservesOriginal asString : Bool) :
    Resolution β → List Text
  | .value v => elements v asString
  | .noValue type =>
    if preservesOriginal then [ascii '$' :: name] else if type = .boolean ∨ type = .string then [[]] else []
  | .unknownMacro => if preservesOriginal then [ascii '$' :: name] else []

def lookups (resolve : Text → Resolution β) (elements : β → Bool → List Text) (name : Text)
    (preservesOriginal asString : Bool) : List Text :=
  lookedUp elements name preservesOriginal asString (resolve name)

variable (fns always) in
/-- The machine looks the name up and leaves the elements of its value, if nothing was there before. -/
theorem execute_lookup (hev : Computes resolve evaluate elements) (asString preservesOriginal : Bool)
    (name : List Text) (stack : List MacroEvaluationResultBuilder) (rb : MacroEvaluationResultBuilder) :
    ∃ pending, executeInstruction fns resolve evaluate always ⟨ofElements name false :: {} :: stack, rb⟩
        (.evalNamedMacro asString preservesOriginal)
      = .ok ⟨ofElements (lookups resolve elements name.flatten preservesOriginal (asString || always)) pending :: stack,
          rb⟩ := by
  simp only [executeInstruction, buildString_ofElements, lookups]
  cases hresolve : resolve name.flatten with
  | value v =>
    obtain ⟨pending, hvalue⟩ := hev _ v hresolve (asString || always)
    refine ⟨pending, ?_⟩
    simp only [hvalue, lookedUp]
    rfl
  | noValue type =>
    refine ⟨false, ?_⟩
    cases preservesOriginal with
    | true => simp [lookedUp, modifyTop, append_eq_addElements, addElements_empty]
    | false =>
      by_cases htype : type = .boolean ∨ type = .string
      · simp [lookedUp, htype, modifyTop, append_eq_addElements, addElements_empty]
      · simp [lookedUp, htype, ofElements_nil]
  | unknownMacro =>
    refine ⟨false, ?_⟩
    cases preservesOriginal with
    | true => simp [lookedUp, modifyTop, append_eq_addElements, addElements_empty]
    | false => simp [lookedUp, ofElements_nil]

theorem lookups_false (name : Text) (asString : Bool) :
    lookups resolve elements name false asString = resolvedValue elements asString (resolve name) := by
  unfold lookups
  cases resolve name <;> rfl

/-- A reference adds what its operators make of the value of its name. -/
theorem run_referenceCode (hev : Computes resolve evaluate elements) {asString : Bool}
    {nameCode operatorsCode : List EvalInstr} {name : List Text} {apply : List Text → List Text}
    (hname : ∀ m, runInstructions fns resolve evaluate always nameCode m = .ok (m.add name))
    (hoperators : ∀ xs pending stack rb, ∃ pending',
      runInstructions fns resolve evaluate always operatorsCode ⟨ofElements xs pending :: stack, rb⟩
        = .ok ⟨ofElements (apply xs) pending' :: stack, rb⟩) (m : Machine) :
    runInstructions fns resolve evaluate always (referenceCode asString nameCode operatorsCode) m
      = .ok (m.add (apply (resolvedValue elements (asString || always) (resolve name.flatten)))) := by
  obtain ⟨stack, rb⟩ := m
  obtain ⟨pending, heval⟩ := execute_lookup fns always hev asString false name stack rb
  rw [lookups_false] at heval
  obtain ⟨pending', hops⟩ := hoperators (resolvedValue elements (asString || always) (resolve name.flatten)) pending
    stack rb
  unfold referenceCode
  rw [cons_append, cons_append, run_cons rfl, append_assoc, cons_append, run_cons rfl,
    run_append (hname _), add_cons, addElements_empty, cons_append, run_cons heval, run_append hops,
    run_cons rfl]
  rfl

/-- The values that names have for a run. -/
def runValues (resolve : Text → Resolution β) (elements : β → Bool → List Text) (name : Text) (asString : Bool) :
    List Text :=
  resolvedValue elements asString (resolve name)

theorem referenceValue_byDesign (values : Text → Bool → List Text) (name : Text) (asString : Bool) :
    referenceValue (.byDesign fns) values name asString = values name asString := by
  cases asString <;> rfl

theorem execute_retrieval (op : MacroEvaluationRetrievalOperator) (xs : List Text) (pending : Bool)
    (stack : List MacroEvaluationResultBuilder) (rb : MacroEvaluationResultBuilder) :
    executeInstruction fns resolve evaluate always ⟨ofElements xs pending :: stack, rb⟩ (.applyRetrievalOperator op)
      = .ok ⟨ofElements (xs.map (op.apply fns)) (decide (xs.map (op.apply fns) ≠ [])) :: stack, rb⟩ := by
  simp only [executeInstruction, enumerate_ofElements, collectElements_eq]

variable (fns resolve evaluate always) in
/-- A replacement operator maps the elements, and only `default` makes something of an empty list. -/
theorem execute_replacement (op : MacroEvaluationReplacementOperator) (operand xs : List Text) (pending : Bool)
    (stack : List MacroEvaluationResultBuilder) (rb : MacroEvaluationResultBuilder) :
    ∃ pending', executeInstruction fns resolve evaluate always
        ⟨ofElements operand false :: ofElements xs pending :: stack, rb⟩ (.applyReplacementOperator op)
      = .ok ⟨ofElements (if xs = [] then (Reading.byDesign fns).onEmpty op operand.flatten
          else xs.map fun element => op.apply fns element operand.flatten) pending' :: stack, rb⟩ := by
  simp only [executeInstruction, buildString_ofElements, hasHadAnyTextAppended_ofElements, enumerate_ofElements,
    collectElements_eq]
  by_cases hxs : xs = []
  · refine ⟨false, ?_⟩
    cases hop : op.applyToEmptyResult <;>
      simp [hxs, Reading.byDesign, hop, append_eq_addElements, addElements_empty, ofElements_nil]
  · exact ⟨_, by simp [hxs]; rfl⟩

mutual

/-- The code of a fragment adds the elements of the fragment. -/
theorem run_fragment (hev : Computes resolve evaluate elements) (asString : Bool) (m : Machine) :
    (t : Fragment) → runInstructions fns resolve evaluate always (t.compile asString) m
      = .ok (m.add (t.eval fns (.byDesign fns) (runValues resolve elements) (asString || always)))
  | .literal s => by
    rw [Fragment.compile, Fragment.eval]
    exact run_literalCode s m
  | .dollar s rest => by
    rw [Fragment.compile, Fragment.eval, append_assoc, run_append (run_literalCode s m),
      run_append (run_dollarCode _), run_fragment hev asString _ rest]
    simp [splice_assoc]
  | .reference s name operators rest => by
    rw [Fragment.compile, Fragment.eval, referenceValue_byDesign, append_assoc,
      run_append (run_literalCode s m),
      run_append (run_referenceCode hev (fun m => run_fragment hev true m name)
        (fun xs pending stack rb => run_operators hev asString xs pending stack rb operators) _),
      run_fragment hev asString _ rest]
    simp [splice_assoc, runValues]

/-- The code of operators applies them to the buffer on top. -/
theorem run_operators (hev : Computes resolve evaluate elements) (asString : Bool) (xs : List Text)
    (pending : Bool) (stack : List MacroEvaluationResultBuilder) (rb : MacroEvaluationResultBuilder) :
    (operators : Operators) → ∃ pending', runInstructions fns resolve evaluate always (operators.compile asString)
        ⟨ofElements xs pending :: stack, rb⟩
      = .ok ⟨ofElements (operators.apply fns (.byDesign fns) (runValues resolve elements) (asString || always) xs)
          pending' :: stack, rb⟩
  | .done => ⟨pending, rfl⟩
  | .retrieval op rest => by
    obtain ⟨pending', hrest⟩ := run_operators hev asString (xs.map (op.apply fns))
      (decide (xs.map (op.apply fns) ≠ [])) stack rb rest
    refine ⟨pending', ?_⟩
    rw [Operators.compile, run_cons (execute_retrieval op xs pending stack rb), hrest, Operators.apply]
  | .replacement op operand rest => by
    obtain ⟨middle, hreplace⟩ := execute_replacement fns resolve evaluate always op
      (operand.eval fns (.byDesign fns) (runValues resolve elements) (asString || always)) xs pending stack rb
    obtain ⟨pending', hrest⟩ := run_operators hev asString _ middle stack rb rest
    refine ⟨pending', ?_⟩
    rw [Operators.compile, cons_append, run_cons rfl, run_append (run_fragment hev asString _ operand),
      add_cons, addElements_empty, run_cons hreplace, hrest, Operators.apply]

end

/-! ## List elements -/

theorem literalValue_append (carry s : Text) :
    literalValue (carry ++ s) = splice (literalValue carry) (literalValue s) := by
  unfold literalValue
  by_cases hcarry : carry = [] <;> by_cases hs : s = [] <;> simp [hcarry, hs, splice]

section

variable (hev : Computes resolve evaluate elements)
include hev

theorem run_parts (asString : Bool) (carry : Text) (p : Parts)
    (m : Machine) :
    runInstructions fns resolve evaluate always (p.compile asString carry) m
      = .ok (m.add (splice (literalValue carry)
          (p.eval fns (.byDesign fns) (runValues resolve elements) always (asString || always)))) := by
  induction p generalizing carry m with
  | literal s => rw [Parts.compile, Parts.eval, run_literalCode, literalValue_append]
  | escaped s c rest ih =>
    have hc : literalValue [c] = [[c]] := rfl
    rw [Parts.compile, Parts.eval, run_append (run_literalCode _ m), run_cons (execute_stringFormOnly _ _), ih, hc]
    simp [literalValue_append, splice_assoc]
  | dollar s rest ih =>
    have hnil : literalValue [] = [] := rfl
    rw [Parts.compile, Parts.eval, append_assoc, run_append (run_literalCode _ m),
      run_append (run_dollarCode _), ih, hnil]
    simp [literalValue_append, splice_assoc]
  | reference s name operators rest ih =>
    have hnil : literalValue [] = [] := rfl
    rw [Parts.compile, Parts.eval, referenceValue_byDesign, append_assoc,
      run_append (run_literalCode _ m),
      run_append (run_referenceCode hev (fun m => run_fragment hev true m name)
        (fun xs pending stack rb => run_operators hev asString xs pending stack rb operators) _), ih, hnil]
    simp [literalValue_append, splice_assoc, runValues]

theorem run_quotedCode (quotes : Quotes) (inside : Parts)
    (m : Machine) :
    runInstructions fns resolve evaluate always (quotedCode quotes inside) m
      = .ok (m.add (quotedValue fns (.byDesign fns) (runValues resolve elements) always quotes inside)) := by
  have hinside : ∀ m : Machine, runInstructions fns resolve evaluate always
      (if inside.isEmpty then [.appendLiteral []] else inside.compile true []) m
      = .ok (m.add (if inside.isEmpty then [[]]
          else inside.eval fns (.byDesign fns) (runValues resolve elements) always true)) := by
    intro m
    cases inside.isEmpty
    · have hparts : runInstructions fns resolve evaluate always (inside.compile true []) m = _ :=
        run_parts hev true [] inside m
      simpa [literalValue] using hparts
    · simp only [if_true, run_cons (execute_appendLiteral _ _)]
      rfl
  unfold quotedCode quotedValue
  rw [cons_append, run_cons (execute_stringFormOnly _ m), run_append (hinside _),
    run_cons (execute_stringFormOnly _ _)]
  simp [splice_assoc]

theorem run_groupsCode (groups : List (Parts × Quotes × Parts))
    (m : Machine) :
    runInstructions fns resolve evaluate always (groupsCode groups) m
      = .ok (m.add (groupsValue fns (.byDesign fns) (runValues resolve elements) always groups)) := by
  induction groups generalizing m with
  | nil => simp [groupsCode, groupsValue]
  | cons g groups ih =>
    obtain ⟨parts, quotes, inside⟩ := g
    rw [groupsCode, groupsValue, append_assoc, run_append (run_parts hev false [] parts m),
      run_append (run_quotedCode hev quotes inside _), ih]
    simp [literalValue, splice_assoc]

theorem run_element (e : Element) (m : Machine) :
    runInstructions fns resolve evaluate always e.compile m
      = .ok (m.add (e.eval fns (.byDesign fns) (runValues resolve elements) always)) := by
  unfold Element.compile Element.eval
  rw [run_append (run_groupsCode hev e.groups m), run_parts hev false [] e.last]
  simp [literalValue]

end

/-! ## String lists -/

/-- A result buffer with these elements. In string form no separator is ever pending. -/
structure Holds (always : Bool) (rb : MacroEvaluationResultBuilder) (es : List Text) : Prop where
  eq : ∃ pending, rb = ofElements es pending ∧ (pending = true → es ≠ [] ∧ always = false)

variable (always) in
theorem holds_empty : Holds always {} [] := ⟨false, rfl, by simp⟩

variable {es : List Text} {rb : MacroEvaluationResultBuilder}

/-- Code that adds elements to a buffer in string form, or to one without elements. -/
theorem Holds.splice (h : Holds always rb es) (xs : List Text) (hmode : always = true ∨ es = []) :
    Holds always (rb.addElements xs) (splice es xs) := by
  obtain ⟨pending, rfl, hpending⟩ := h.eq
  have hfalse : pending = false := by
    cases pending with
    | false => rfl
    | true =>
      obtain ⟨hne, hlist⟩ := hpending rfl
      rcases hmode with hmode | hmode
      · rw [hlist] at hmode
        cases hmode
      · exact absurd hmode hne
  subst hfalse
  by_cases hxs : xs = []
  · exact ⟨false, by simp [hxs], by simp⟩
  · exact ⟨false, by rw [ofElements_addElements (by simp) hxs]; simp, by simp⟩

variable (fns resolve evaluate) in
theorem run_whitespaceCode (h : Holds always rb es) (s : Text) :
    ∃ rb', runInstructions fns resolve evaluate always (whitespaceCode s) ⟨[], rb⟩ = .ok ⟨[], rb'⟩
      ∧ Holds always rb' (splice es (if always then literalValue s else [])) := by
  unfold whitespaceCode literalValue
  by_cases hs : s = []
  · exact ⟨rb, by simp [hs], by simpa [hs] using h⟩
  · simp only [hs, if_false, run_cons (execute_stringFormOnly _ _)]
    refine ⟨rb.addElements (if always then [s] else []), rfl, ?_⟩
    cases hmode : always with
    | false => simpa [hmode] using h
    | true => simpa using (hmode ▸ h).splice [s] (.inl rfl)

variable (fns resolve evaluate) in
theorem execute_setNeedsListSeparator (h : Holds always rb es) (s : Text) :
    ∃ pending, executeInstruction fns resolve evaluate always ⟨[], rb⟩ (.setNeedsListSeparator s)
        = .ok ⟨[], ofElements (if always then Splice.splice es [s] else es) pending⟩
      ∧ (pending = if always then false else decide (es ≠ [])) := by
  obtain ⟨pending, rfl, hpending⟩ := h.eq
  cases hmode : always with
  | false =>
    refine ⟨decide (es ≠ []), ?_, rfl⟩
    simp only [executeInstruction, Bool.false_eq_true, if_false, modifyTop, ofElements_setNeeds]
    cases pending with
    | false => rfl
    | true => simp [(hpending rfl).1]
  | true =>
    have hfalse : pending = false := by
      cases pending with
      | false => rfl
      | true => simpa [hmode] using (hpending rfl).2
    refine ⟨false, ?_, rfl⟩
    simp [executeInstruction, modifyTop, append_eq_addElements, hfalse, ofElements_addElements]

/-- Code after a separator. -/
theorem run_next {code : List EvalInstr} {xs : List Text}
    (hcode : ∀ m, runInstructions fns resolve evaluate always code m = .ok (m.add xs)) (h : Holds always rb es)
    (s : Text) :
    ∃ rb', runInstructions fns resolve evaluate always (.setNeedsListSeparator s :: code) ⟨[], rb⟩ = .ok ⟨[], rb'⟩
      ∧ Holds always rb'
        (if always then Splice.splice es (Splice.splice [s] xs) else es ++ xs) := by
  obtain ⟨pending, hset, hpending⟩ := execute_setNeedsListSeparator fns resolve evaluate h s
  rw [run_cons hset, hcode]
  refine ⟨_, rfl, ?_⟩
  cases hmode : always with
  | true =>
    simp only [hmode, if_true] at hpending ⊢
    subst hpending
    have hnow : Holds true (ofElements (Splice.splice es [s]) false) (Splice.splice es [s]) :=
      ⟨false, rfl, by simp⟩
    simpa [splice_assoc] using hnow.splice xs (.inl rfl)
  | false =>
    simp only [hmode, Bool.false_eq_true, if_false] at hpending ⊢
    subst hpending
    by_cases hxs : xs = []
    · exact ⟨decide (es ≠ []), by simp [hxs], by simp [hxs]⟩
    · refine ⟨false, ?_, by simp⟩
      rw [ofElements_addElements (by simp) hxs]
      by_cases hes : es = [] <;> simp [hes]

variable (fns) in
theorem run_moreCode (hev : Computes resolve evaluate elements) (more : List (Text × Element))
    (h : Holds always rb es) :
    ∃ rb', runInstructions fns resolve evaluate always (moreCode more) ⟨[], rb⟩ = .ok ⟨[], rb'⟩
      ∧ Holds always rb' (moreValue fns (.byDesign fns) (runValues resolve elements) always es more) := by
  induction more generalizing rb es with
  | nil => exact ⟨rb, by simp [moreCode], h⟩
  | cons w more ih =>
    obtain ⟨s, e⟩ := w
    have hcode : ∀ m, runInstructions fns resolve evaluate always e.compile m
        = .ok (m.add (e.eval fns (.byDesign fns) (runValues resolve elements) always)) := run_element hev e
    obtain ⟨rb', hrun, hholds⟩ := run_next hcode h s
    obtain ⟨rb'', hmore, hholds'⟩ := ih hholds
    exact ⟨rb'', by rw [moreCode, run_append hrun, hmore], hholds'⟩

variable (fns always) in
/-- The code of a string list gives the elements of the list. -/
theorem run_listText (hev : Computes resolve evaluate elements) (t : ListText) :
    ∃ rb, runInstructions fns resolve evaluate always t.compile ⟨[], {}⟩ = .ok ⟨[], rb⟩
      ∧ Holds always rb (t.eval fns (.byDesign fns) (runValues resolve elements) always) := by
  cases t with
  | blank whitespace =>
    simpa [ListText.compile, ListText.eval] using
      run_whitespaceCode fns resolve evaluate (holds_empty always) whitespace
  | elements leading first more trailing =>
    obtain ⟨rb₁, hrun₁, h₁⟩ := run_whitespaceCode fns resolve evaluate (holds_empty always) leading
    have hmode : always = true ∨ Splice.splice [] (if always then literalValue leading else []) = [] := by
      cases always <;> simp
    have h₂ := h₁.splice (first.eval fns (.byDesign fns) (runValues resolve elements) always) hmode
    obtain ⟨rb₃, hrun₃, h₃⟩ := run_moreCode fns hev more h₂
    obtain ⟨rb₄, hrun₄, h₄⟩ := run_whitespaceCode fns resolve evaluate h₃ trailing
    refine ⟨rb₄, ?_, ?_⟩
    · rw [ListText.compile, append_assoc, append_assoc, run_append hrun₁, run_append (run_element hev first _)]
      exact (run_append hrun₃).trans hrun₄
    · simpa [ListText.eval] using h₄

end Runs

end Builra.Macro
