import Builra.Macro.Scope

namespace Builra.Macro

/-!
# `Macro.Syntax` — macro expressions as syntax trees, and their direct evaluation

The abstract side of compilation: well-formed expressions are trees with a text (`Fragment` for strings, names
and operands, `ListText` for string lists), and a tree is evaluated by recursion into a list of elements, where
neighbouring parts are glued with `splice`. Nothing here knows about instructions, buffers or pending
separators; `Macro.Meaning` proves that the program of the text computes the value of the tree.
-/

open Splice

/-! ## Trees -/

mutual

/-- A string, a name or an operand. Every form starts with the literal text before it, which may be empty. -/
inductive Fragment where
  /-- Literal text up to the end. -/
  | literal (s : Text)
  /-- `$$`. -/
  | dollar (s : Text) (rest : Fragment)
  /-- `$(name:operators)`. -/
  | reference (s : Text) (name : Fragment) (operators : Operators) (rest : Fragment)

/-- The operators of a reference. -/
inductive Operators where
  | done
  | retrieval (op : MacroEvaluationRetrievalOperator) (rest : Operators)
  | replacement (op : MacroEvaluationReplacementOperator) (operand : Fragment) (rest : Operators)

end

/-- A part of a list element, inside or outside of quotes. -/
inductive Parts where
  | literal (s : Text)
  /-- A backslash and the character it escapes. -/
  | escaped (s : Text) (c : UInt8) (rest : Parts)
  | dollar (s : Text) (rest : Parts)
  | reference (s : Text) (name : Fragment) (operators : Operators) (rest : Parts)

inductive Quotes where
  | double
  | single
deriving DecidableEq

/-- A list element: parts outside of quotes, each followed by a quoted part, and a last part. -/
structure Element where
  groups : List (Parts × Quotes × Parts)
  last : Parts

/-- A string list: whitespace only, or elements with the whitespace around them. -/
inductive ListText where
  | blank (whitespace : Text)
  | elements (leading : Text) (first : Element) (more : List (Text × Element)) (trailing : Text)

/-! ## Texts -/

def MacroEvaluationRetrievalOperator.name : MacroEvaluationRetrievalOperator → Text
  | .quote => Macro.text "quote"
  | .upper => Macro.text "upper"
  | .lower => Macro.text "lower"
  | .identifier => Macro.text "identifier"
  | .rfc1034identifier => Macro.text "rfc1034identifier"
  | .c99extidentifier => Macro.text "c99extidentifier"
  | .md5 => Macro.text "__md5"
  | .stripslash => Macro.text "__stripslash"
  | .dir => Macro.text "dir"
  | .file => Macro.text "file"
  | .base => Macro.text "base"
  | .suffix => Macro.text "suffix"
  | .standardizepath => Macro.text "standardizepath"
  | .not => Macro.text "not"

def MacroEvaluationReplacementOperator.name : MacroEvaluationReplacementOperator → Text
  | .dir => Macro.text "dir"
  | .file => Macro.text "file"
  | .base => Macro.text "base"
  | .suffix => Macro.text "suffix"
  | .default => Macro.text "default"
  | .relativeto => Macro.text "relativeto"
  | .isancestor => Macro.text "isancestor"

mutual

def Fragment.text : Fragment → Text
  | .literal s => s
  | .dollar s rest => s ++ ascii '$' :: ascii '$' :: rest.text
  | .reference s name operators rest =>
    s ++ ascii '$' :: ascii '(' :: (name.text ++ (operators.text ++ ascii ')' :: rest.text))

def Operators.text : Operators → Text
  | .done => []
  | .retrieval op rest => ascii ':' :: (op.name ++ rest.text)
  | .replacement op operand rest => ascii ':' :: (op.name ++ ascii '=' :: (operand.text ++ rest.text))

end

def Parts.text : Parts → Text
  | .literal s => s
  | .escaped s c rest => s ++ ascii '\\' :: c :: rest.text
  | .dollar s rest => s ++ ascii '$' :: ascii '$' :: rest.text
  | .reference s name operators rest =>
    s ++ ascii '$' :: ascii '(' :: (name.text ++ (operators.text ++ ascii ')' :: rest.text))

def Quotes.char : Quotes → UInt8
  | .double => ascii '"'
  | .single => ascii '\''

/-- The text of a list of groups, before some other text. -/
def groupsText : List (Parts × Quotes × Parts) → Text → Text
  | [], after => after
  | (parts, quotes, inside) :: groups, after =>
    parts.text ++ quotes.char :: (inside.text ++ quotes.char :: groupsText groups after)

def Element.text (e : Element) : Text := groupsText e.groups e.last.text

/-- The elements after the first, each after its whitespace, before the trailing whitespace. -/
def moreText : List (Text × Element) → Text → Text
  | [], trailing => trailing
  | (whitespace, e) :: more, trailing => whitespace ++ (e.text ++ moreText more trailing)

def ListText.text : ListText → Text
  | .blank whitespace => whitespace
  | .elements leading first more trailing => leading ++ (first.text ++ moreText more trailing)

/-! ## Well-formed trees -/

/-- The characters that end literal text in a string. -/
def specialInString (c : UInt8) : Bool := c = ascii '$'

/-- The characters that end literal text in a name or an operand. -/
def specialInBrackets (c : UInt8) : Bool := c = ascii '$' ∨ c = ascii ':' ∨ c = ascii ')'

/-- The characters that end literal text in a list element, outside of quotes. -/
def specialInElement (c : UInt8) : Bool :=
  c = ascii '\\' ∨ c = ascii '$' ∨ c = ascii '"' ∨ c = ascii '\'' ∨ isAtWhitespace [c] = true

/-- The characters that end literal text in quotes. -/
def Quotes.special (quotes : Quotes) (c : UInt8) : Bool := c = ascii '\\' ∨ c = ascii '$' ∨ c = quotes.char

def Literal (special : UInt8 → Bool) (s : Text) : Prop := ∀ c ∈ s, special c = false

def Fragment.isEmpty : Fragment → Bool
  | .literal s => s.isEmpty
  | _ => false

mutual

def Fragment.WellFormed (special : UInt8 → Bool) : Fragment → Prop
  | .literal s => Literal special s
  | .dollar s rest => Literal special s ∧ rest.WellFormed special
  | .reference s name operators rest => Literal special s ∧ name.isEmpty = false
    ∧ name.WellFormed specialInBrackets ∧ operators.WellFormed ∧ rest.WellFormed special

def Operators.WellFormed : Operators → Prop
  | .done => True
  | .retrieval _ rest => rest.WellFormed
  | .replacement _ operand rest => operand.WellFormed specialInBrackets ∧ rest.WellFormed

end

def Parts.isEmpty : Parts → Bool
  | .literal s => s.isEmpty
  | _ => false

def Parts.WellFormed (special : UInt8 → Bool) : Parts → Prop
  | .literal s => Literal special s
  | .escaped s _ rest => Literal special s ∧ rest.WellFormed special
  | .dollar s rest => Literal special s ∧ rest.WellFormed special
  | .reference s name operators rest => Literal special s ∧ name.isEmpty = false
    ∧ name.WellFormed specialInBrackets ∧ operators.WellFormed ∧ rest.WellFormed special

structure Element.WellFormed (e : Element) : Prop where
  nonempty : e.groups ≠ [] ∨ e.last.isEmpty = false
  groups : ∀ g ∈ e.groups, g.1.WellFormed specialInElement ∧ g.2.2.WellFormed g.2.1.special
  last : e.last.WellFormed specialInElement

def Whitespace (s : Text) : Prop := ∀ c ∈ s, isAtWhitespace [c] = true

def ListText.WellFormed : ListText → Prop
  | .blank whitespace => Whitespace whitespace
  | .elements leading first more trailing => Whitespace leading ∧ first.WellFormed
    ∧ (∀ m ∈ more, m.1 ≠ [] ∧ Whitespace m.1 ∧ m.2.WellFormed) ∧ Whitespace trailing

/-! ## Direct evaluation -/

/-- How two cases of direct evaluation are read. -/
structure Reading where
  /-- What a replacement operator with this operand makes of an empty list. -/
  onEmpty : MacroEvaluationReplacementOperator → Text → List Text
  /-- The value of a reference that is evaluated as a string, from the elements of its string form. -/
  asString : List Text → List Text

/-- Every operator is applied to the elements there are, and a reference that is evaluated as a string is one
element. -/
def Reading.elementwise : Reading where
  onEmpty _ _ := []
  asString elements := [elements.flatten]

/-- An operator may apply to an empty result, and a reference whose evaluation appends nothing is no element,
also as a string. -/
def Reading.byDesign (fns : StringFunctions) : Reading where
  onEmpty op operand := if op.applyToEmptyResult then [op.apply fns [] operand] else []
  asString elements := elements

/-- Literal text; the empty text between two parts is no element. -/
def literalValue (s : Text) : List Text := if s = [] then [] else [s]

section Eval

-- `values name asString` are the elements of the value that a name has
variable (fns : StringFunctions) (reading : Reading) (values : Text → Bool → List Text)

/-- The value of a reference to a name. -/
def referenceValue (name : Text) (asString : Bool) : List Text :=
  if asString then reading.asString (values name true) else values name false

mutual

/-- The elements of a fragment. A name is evaluated as a string; the elements of an operand are joined. -/
def Fragment.eval (asString : Bool) : Fragment → List Text
  | .literal s => literalValue s
  | .dollar s rest => splice (literalValue s) (splice [[ascii '$']] (rest.eval asString))
  | .reference s name operators rest =>
    splice (literalValue s)
      (splice (operators.apply asString (referenceValue reading values (name.eval true).flatten asString))
        (rest.eval asString))

/-- The operators of a reference in order, each applied to all elements. The elements of an operand are joined, as the
code does it where the operand is evaluated as a list; the parser's comment has operands be strings. -/
def Operators.apply (asString : Bool) : Operators → List Text → List Text
  | .done, elements => elements
  | .retrieval op rest, elements => rest.apply asString (elements.map (op.apply fns))
  | .replacement op operand rest, elements =>
    rest.apply asString
      (if elements = [] then reading.onEmpty op (operand.eval asString).flatten
        else elements.map fun element => op.apply fns element (operand.eval asString).flatten)

end

/-- The elements of a part of a list element. The string form keeps the backslashes. -/
def Parts.eval (stringForm asString : Bool) : Parts → List Text
  | .literal s => literalValue s
  | .escaped s c rest =>
    splice (literalValue s)
      (splice (if stringForm then [[ascii '\\']] else []) (splice [[c]] (rest.eval stringForm asString)))
  | .dollar s rest => splice (literalValue s) (splice [[ascii '$']] (rest.eval stringForm asString))
  | .reference s name operators rest =>
    splice (literalValue s)
      (splice (operators.apply fns reading values asString
          (referenceValue reading values (name.eval fns reading values true).flatten asString))
        (rest.eval stringForm asString))

/-- What stands in quotes is evaluated as a string; a pair of quotes with nothing inside is an empty element. -/
def quotedValue (stringForm : Bool) (quotes : Quotes) (inside : Parts) : List Text :=
  let quote := if stringForm then [[quotes.char]] else []
  splice quote
    (splice (if inside.isEmpty then [[]] else inside.eval fns reading values stringForm true) quote)

def groupsValue (stringForm : Bool) : List (Parts × Quotes × Parts) → List Text
  | [] => []
  | (parts, quotes, inside) :: groups =>
    splice (parts.eval fns reading values stringForm stringForm)
      (splice (quotedValue fns reading values stringForm quotes inside) (groupsValue stringForm groups))

def Element.eval (stringForm : Bool) (e : Element) : List Text :=
  splice (groupsValue fns reading values stringForm e.groups)
    (e.last.eval fns reading values stringForm stringForm)

/-- The elements after the first: in list form their lists one after the other, in string form with the
whitespace as text. -/
def moreValue (stringForm : Bool) (first : List Text) : List (Text × Element) → List Text
  | [] => first
  | (whitespace, e) :: more =>
    let value := e.eval fns reading values stringForm
    moreValue stringForm
      (if stringForm then splice first (splice [whitespace] value) else first ++ value) more

def ListText.eval (stringForm : Bool) : ListText → List Text
  | .blank whitespace => if stringForm then literalValue whitespace else []
  | .elements leading first more trailing =>
    let around := fun whitespace => if stringForm then literalValue whitespace else []
    splice
      (moreValue fns reading values stringForm
        (splice (around leading) (first.eval fns reading values stringForm)) more)
      (around trailing)

end Eval

/-- The elements of a string: its references are evaluated as strings, and the empty string is one empty
element. -/
def stringValue (fns : StringFunctions) (reading : Reading) (values : Text → Bool → List Text)
    (t : Fragment) : List Text :=
  if t.isEmpty then [[]] else t.eval fns reading values true

end Builra.Macro
