import Builra.Lib.Splice

namespace Builra.Macro

/-!
# `Macro.Program` — macro evaluation programs and the machine that runs them

A macro expression is compiled into a list of instructions that build a result in a stack of buffers. A
buffer is one byte sequence with the offsets of its list separators (`MacroEvaluationResultBuilder`). The
machine is the loop of `executeInContext`, over what the context resolves a name to and how the value of a
macro is evaluated; `Macro.Scope` gives it both.
-/

/-- A string, as the bytes of its UTF-8 view. -/
abbrev Text := List UInt8

/-- An ASCII character as a byte. -/
def ascii (c : Char) : UInt8 := c.toNat.toUInt8

/-- The bytes of an ASCII literal of the source. -/
def text (s : String) : Text := s.toList.map ascii

inductive MacroType where
  | boolean
  | string
  | stringList
  | userDefined
  | path
  | pathList
deriving DecidableEq, Repr

inductive MacroEvaluationRetrievalOperator where
  | quote
  | upper
  | lower
  | identifier
  | rfc1034identifier
  | c99extidentifier
  | md5
  | stripslash
  | dir
  | file
  | base
  | suffix
  | standardizepath
  | not
deriving DecidableEq, Repr

inductive MacroEvaluationReplacementOperator where
  | dir
  | file
  | base
  | suffix
  | default
  | relativeto
  | isancestor
deriving DecidableEq, Repr

/-- The operator of a name, if it is one. -/
def MacroEvaluationRetrievalOperator.ofName (name : Text) : Option MacroEvaluationRetrievalOperator :=
  if name = text "quote" then some .quote
  else if name = text "upper" then some .upper
  else if name = text "lower" then some .lower
  else if name = text "identifier" then some .identifier
  else if name = text "rfc1034identifier" then some .rfc1034identifier
  else if name = text "c99extidentifier" then some .c99extidentifier
  else if name = text "__md5" then some .md5
  else if name = text "__stripslash" then some .stripslash
  else if name = text "dir" then some .dir
  else if name = text "file" then some .file
  else if name = text "base" then some .base
  else if name = text "suffix" then some .suffix
  else if name = text "standardizepath" then some .standardizepath
  else if name = text "not" then some .not
  else none

def MacroEvaluationReplacementOperator.ofName (name : Text) : Option MacroEvaluationReplacementOperator :=
  if name = text "dir" then some .dir
  else if name = text "file" then some .file
  else if name = text "base" then some .base
  else if name = text "suffix" then some .suffix
  else if name = text "relativeto" then some .relativeto
  else if name = text "isancestor" then some .isancestor
  else if name = text "default" then some .default
  else none

/-- Whether the operator is applied even to an empty result. -/
def MacroEvaluationReplacementOperator.applyToEmptyResult : MacroEvaluationReplacementOperator → Bool
  | .default => true
  | _ => false

/-- The string and path functions of the utility library that the operators call. -/
structure StringFunctions where
  retrieve : MacroEvaluationRetrievalOperator → Text → Text
  replace : MacroEvaluationReplacementOperator → Text → Text → Text

/-- `apply(to:)`: the operators that need no path or Unicode function are spelled out. -/
def MacroEvaluationRetrievalOperator.apply (fns : StringFunctions) (op : MacroEvaluationRetrievalOperator)
    (string : Text) : Text :=
  match op with
  | .stripslash => if string.head? = some (ascii '/') then string.tail else string
  | .not => if string ≠ text "YES" then text "YES" else text "NO"
  | op => fns.retrieve op string

/-- `apply(to:withReplacement:)`. -/
def MacroEvaluationReplacementOperator.apply (fns : StringFunctions) (op : MacroEvaluationReplacementOperator)
    (string replacementString : Text) : Text :=
  match op with
  | .default => if string.isEmpty then replacementString else string
  | op => fns.replace op string replacementString

/-- A single instruction. -/
inductive EvalInstr where
  | appendLiteral (s : Text)
  | appendStringFormOnlyLiteral (s : Text)
  | setNeedsListSeparator (s : Text)
  | beginSubresult
  | evalNamedMacro (asString preserveOriginalIfUnresolved : Bool)
  | mergeSubresult
  | applyRetrievalOperator (op : MacroEvaluationRetrievalOperator)
  | applyReplacementOperator (op : MacroEvaluationReplacementOperator)
deriving DecidableEq

/-- `MacroEvaluationProgram`, by its `ProgramVariant`. -/
inductive MacroEvaluationProgram where
  | empty
  | literal (string : Text)
  | instructions (value : List EvalInstr)
deriving DecidableEq

/-- `init(instructions:)` singles out programs without instructions and single literals. -/
def MacroEvaluationProgram.ofInstructions : List EvalInstr → MacroEvaluationProgram
  | [] => .empty
  | [.appendLiteral string] => .literal string
  | instrs => .instructions instrs

def MacroEvaluationProgram.asLiteralString : MacroEvaluationProgram → Option Text
  | .empty => some []
  | .literal value => some value
  | .instructions _ => none

/-! ## Result buffers -/

/-- A sequence of bytes with the offsets of the list separators in it. -/
structure MacroEvaluationResultBuilder where
  accumulatedStringUTF8 : Text := []
  listElementSeparators : List Nat := []
  /-- A separator is needed when more text is added. -/
  needsListElementSeparator : Bool := false
  hasHadAnyTextAppended : Bool := false
deriving DecidableEq

namespace MacroEvaluationResultBuilder

variable (b : MacroEvaluationResultBuilder)

def applyPendingListElementSeparatorIfNeeded :
    MacroEvaluationResultBuilder :=
  if b.needsListElementSeparator then
    { b with
      listElementSeparators := b.listElementSeparators ++ [b.accumulatedStringUTF8.length]
      needsListElementSeparator := false }
  else b

def setNeedsListElementSeparator : MacroEvaluationResultBuilder :=
  if b.hasHadAnyTextAppended then { b with needsListElementSeparator := true } else b

def append (string : Text) : MacroEvaluationResultBuilder :=
  let b := b.applyPendingListElementSeparatorIfNeeded
  { b with
    accumulatedStringUTF8 := b.accumulatedStringUTF8 ++ string
    hasHadAnyTextAppended := true }

def appendContentsOfResultBuilder (b other : MacroEvaluationResultBuilder) : MacroEvaluationResultBuilder :=
  if other.hasHadAnyTextAppended then
    let b := b.applyPendingListElementSeparatorIfNeeded
    let baseIndex := b.accumulatedStringUTF8.length
    { b with
      accumulatedStringUTF8 := b.accumulatedStringUTF8 ++ other.accumulatedStringUTF8
      listElementSeparators :=
        b.listElementSeparators ++ other.listElementSeparators.map (fun separator => baseIndex + separator)
      hasHadAnyTextAppended := true }
  else b

/-- The elements `enumerateListElementSubstrings` gives its block: one for each separator, and the one after
the last separator if any text was appended. -/
def enumerateListElementSubstrings : List Text :=
  go 0 b.listElementSeparators
where
  go (lastIndex : Nat) : List Nat → List Text
    | [] => if b.hasHadAnyTextAppended then [b.accumulatedStringUTF8.drop lastIndex] else []
    | separator :: separators =>
      (b.accumulatedStringUTF8.drop lastIndex).take (separator - lastIndex) :: go separator separators

def buildString : Text := b.accumulatedStringUTF8

def buildStringList : List Text := b.enumerateListElementSubstrings

end MacroEvaluationResultBuilder

/-! ## The machine -/

/-- Why an evaluation has no result. -/
inductive Halt where
  /-- A forced unwrap of nothing. -/
  | unwrappedNothing
  /-- The assertion at the end of a program: a subresult is left. -/
  | assertionFailed
  /-- The depth of nested evaluations that the model follows is exceeded. -/
  | outOfFuel
deriving DecidableEq, Repr

/-- What a context resolves a macro name to; `β` is a value with what is needed to evaluate it. -/
inductive Resolution (β : Type) where
  /-- No macro has this name. -/
  | unknownMacro
  /-- There is a macro of this type, and no (further) value for it. -/
  | noValue (type : MacroType)
  | value (v : β)

/-- The local state of `executeInContext`: the top of the stack of subresults comes first. -/
structure Machine where
  subresults : List MacroEvaluationResultBuilder
  resultBuilder : MacroEvaluationResultBuilder
deriving DecidableEq

/-- Change the buffer `subresults.last ?? resultBuilder`. -/
def Machine.modifyTop (m : Machine) (f : MacroEvaluationResultBuilder → MacroEvaluationResultBuilder) :
    Machine :=
  match m.subresults with
  | top :: below => { m with subresults := f top :: below }
  | [] => { m with resultBuilder := f m.resultBuilder }

/-- A new buffer with the elements of a list, as the two operator instructions fill it. -/
def collectElements (elements : List Text) : MacroEvaluationResultBuilder :=
  elements.foldl (fun nb element => (nb.append element).setNeedsListElementSeparator) {}

section Execution

variable {β : Type} (fns : StringFunctions) (resolve : Text → Resolution β)
  (evaluate : β → Bool → MacroEvaluationResultBuilder → Except Halt MacroEvaluationResultBuilder)
  (alwaysEvalAsString : Bool)

/-- One iteration of the loop of `executeInContext`. -/
def executeInstruction (m : Machine) : EvalInstr → Except Halt Machine
  | .appendLiteral s => .ok (m.modifyTop (·.append s))
  | .appendStringFormOnlyLiteral s =>
    .ok (if alwaysEvalAsString then m.modifyTop (·.append s) else m)
  | .setNeedsListSeparator s =>
    .ok (if alwaysEvalAsString then m.modifyTop (·.append s)
      else m.modifyTop (·.setNeedsListElementSeparator))
  | .beginSubresult => .ok { m with subresults := {} :: m.subresults }
  | .evalNamedMacro asString preservesOriginal =>
    match m.subresults with
    | [] => .error .unwrappedNothing
    | nb :: rest =>
      let s := nb.buildString
      let m := { m with subresults := rest }
      match resolve s with
      | .value v =>
        match rest with
        | [] => .error .unwrappedNothing
        | top :: below => do
          let top ← evaluate v (asString || alwaysEvalAsString) top
          return { m with subresults := top :: below }
      | .noValue type =>
        if preservesOriginal then
          .ok (m.modifyTop (·.append (ascii '$' :: s)))
        else if type = .boolean ∨ type = .string then
          .ok (m.modifyTop (·.append []))
        else .ok m
      | .unknownMacro =>
        .ok (if preservesOriginal then m.modifyTop (·.append (ascii '$' :: s)) else m)
  | .mergeSubresult =>
    match m.subresults with
    | [] => .error .unwrappedNothing
    | nb :: rest => .ok ({ m with subresults := rest }.modifyTop (·.appendContentsOfResultBuilder nb))
  | .applyRetrievalOperator op =>
    match m.subresults with
    | [] => .error .unwrappedNothing
    | sb :: rest =>
      let nb := collectElements (sb.enumerateListElementSubstrings.map (op.apply fns))
      .ok { m with subresults := nb :: rest }
  | .applyReplacementOperator op =>
    match m.subresults with
    | [] => .error .unwrappedNothing
    | [_] => .error .unwrappedNothing
    | operandBuilder :: sb :: rest =>
      let operand := operandBuilder.buildString
      let nb :=
        if sb.hasHadAnyTextAppended then
          collectElements (sb.enumerateListElementSubstrings.map fun element => op.apply fns element operand)
        else if op.applyToEmptyResult then
          ({} : MacroEvaluationResultBuilder).append (op.apply fns [] operand)
        else {}
      .ok { m with subresults := nb :: rest }

/-- The loop of `executeInContext`. -/
def runInstructions (instructions : List EvalInstr) (m : Machine) : Except Halt Machine :=
  instructions.foldlM (executeInstruction fns resolve evaluate alwaysEvalAsString) m

variable (debug : Bool)

/-- All subresults should have been consumed at the end, which a debug build checks with an assertion. -/
def Machine.finish (m : Machine) : Except Halt MacroEvaluationResultBuilder :=
  if debug && !m.subresults.isEmpty then .error .assertionFailed else .ok m.resultBuilder

/-- `executeInContext`: run the program on the buffer of the caller. -/
def executeProgram (program : MacroEvaluationProgram)
    (resultBuilder : MacroEvaluationResultBuilder) : Except Halt MacroEvaluationResultBuilder :=
  match program with
  | .empty => .ok resultBuilder
  | .literal s => .ok (resultBuilder.append s)
  | .instructions instructions => do
    let m ← runInstructions fns resolve evaluate alwaysEvalAsString instructions ⟨[], resultBuilder⟩
    m.finish debug

@[simp]
theorem runInstructions_nil (m : Machine) :
    runInstructions fns resolve evaluate alwaysEvalAsString [] m = .ok m := by
  rfl

theorem runInstructions_append (is js : List EvalInstr) (m : Machine) :
    runInstructions fns resolve evaluate alwaysEvalAsString (is ++ js) m
      = runInstructions fns resolve evaluate alwaysEvalAsString is m >>=
          runInstructions fns resolve evaluate alwaysEvalAsString js := by
  unfold runInstructions
  exact List.foldlM_append

theorem runInstructions_cons (i : EvalInstr) (is : List EvalInstr) (m : Machine) :
    runInstructions fns resolve evaluate alwaysEvalAsString (i :: is) m
      = executeInstruction fns resolve evaluate alwaysEvalAsString m i >>=
          runInstructions fns resolve evaluate alwaysEvalAsString is := by
  unfold runInstructions
  exact List.foldlM_cons

/-- The variants of a program run like its instructions. -/
theorem executeProgram_ofInstructions (is : List EvalInstr) (rb : MacroEvaluationResultBuilder) :
    executeProgram fns resolve evaluate alwaysEvalAsString debug (.ofInstructions is) rb
      = runInstructions fns resolve evaluate alwaysEvalAsString is ⟨[], rb⟩ >>= Machine.finish debug := by
  unfold MacroEvaluationProgram.ofInstructions
  split
  · cases debug <;> rfl
  · cases debug <;> rfl
  · rfl

/-- A run depends only on how the values are evaluated that names resolve to. -/
theorem executeProgram_congr
    {evaluate' : β → Bool → MacroEvaluationResultBuilder → Except Halt MacroEvaluationResultBuilder}
    (h : ∀ s v, resolve s = .value v → evaluate v = evaluate' v) (debug : Bool) (program : MacroEvaluationProgram)
    (rb : MacroEvaluationResultBuilder) :
    executeProgram fns resolve evaluate alwaysEvalAsString debug program rb
      = executeProgram fns resolve evaluate' alwaysEvalAsString debug program rb := by
  have hstep : executeInstruction fns resolve evaluate alwaysEvalAsString
      = executeInstruction fns resolve evaluate' alwaysEvalAsString := by
    funext m i
    cases i with
    | evalNamedMacro asString preserves =>
      obtain ⟨stack, rb⟩ := m
      cases stack with
      | nil => rfl
      | cons nb rest =>
        simp only [executeInstruction]
        cases hresolve : resolve nb.buildString with
        | value v => simp only [h _ v hresolve]
        | noValue type => rfl
        | unknownMacro => rfl
    | _ => rfl
  cases program with
  | instructions is =>
    unfold executeProgram runInstructions
    rw [hstep]
  | _ => rfl

end Execution

end Builra.Macro
