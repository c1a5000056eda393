import Builra.Macro.AssignmentTables
import Builra.Macro.Meaning

namespace Builra.Macro

open List MacroValueAssignment Bool

/-!
# `Macro.Binding` — a table with a bound condition parameter evaluates like the parameter's value

`bindConditionParameter` leaves a chain as it is when no condition on the parameter matches the value, and it asks
the first condition on the parameter only, whereas evaluation asks them all. Where neither makes a difference the
bound table has no condition on the parameter left, and it evaluates everything as the table does with the
parameter set.
-/

variable (parameter : MacroConditionParameter)

/-- One of the conditions of the assignment is on the parameter. -/
def MacroValueAssignment.ConditionedOn (v : MacroValueAssignment) : Prop :=
  ∃ conditions, v.conditions = some conditions ∧ ∃ condition ∈ conditions, condition.parameter = parameter

/-- No assignment of the table is conditioned on the parameter. -/
def MacroValueAssignmentTable.Unconditioned (table : MacroValueAssignmentTable) :
    Prop :=
  ∀ entry ∈ table.valueAssignments, ∀ v ∈ entry.2, ¬v.ConditionedOn parameter

/-- Some assignment of the chain matches the value, unless none is conditioned on the parameter. -/
def MatchedIfConditioned (fns : MatchFunctions) (parameter : MacroConditionParameter) (value : Text)
    (chain : List MacroValueAssignment) : Prop :=
  (∃ v ∈ chain, v.matchesValue fns parameter (.string value) = true) ∨ ∀ v ∈ chain, ¬v.ConditionedOn parameter

/-- If the first condition on the parameter matches the value, all do. -/
def FirstConditionDecides (fns : MatchFunctions) (parameter : MacroConditionParameter) (value : Text)
    (v : MacroValueAssignment) : Prop :=
  v.matchesValue fns parameter (.string value) = true →
    ∀ conditions, v.conditions = some conditions → ∀ condition ∈ conditions, condition.parameter = parameter →
      fns.fnmatch condition.valuePattern value = true

/-- The parameter values, with this parameter set to one value. -/
def ConditionParameterValues.set (paramValues : ConditionParameterValues) (parameter : MacroConditionParameter)
    (value : Text) : ConditionParameterValues :=
  fun p => if p = parameter then some [value] else paramValues p

section Binding

variable {fns : MatchFunctions} {parameter : MacroConditionParameter} {value : Text}
  {paramValues : ConditionParameterValues}

/-! ## Conditions -/

variable {v : MacroValueAssignment} {condition : MacroCondition}

theorem conditionOn_eq_none_iff :
    v.conditionOn parameter = none ↔ ¬v.ConditionedOn parameter := by
  unfold conditionOn MacroValueAssignment.ConditionedOn
  cases v.conditions with
  | none => simp
  | some conditions => simp [find?_eq_none]

theorem evaluate_set_of_eq (h : condition.parameter = parameter) :
    condition.evaluate fns (paramValues.set parameter value) = fns.fnmatch condition.valuePattern value := by
  simp only [MacroCondition.evaluate, ConditionParameterValues.set, h, if_true, any_cons, any_nil, Bool.or_false]

theorem evaluate_set_of_ne (h : condition.parameter ≠ parameter) :
    condition.evaluate fns (paramValues.set parameter value) = condition.evaluate fns paramValues := by
  simp only [MacroCondition.evaluate, ConditionParameterValues.set, h, if_false]

/-- Conditions apply to the set values if those on the parameter match the value and the others apply. -/
theorem all_evaluate_set {conditions : List MacroCondition} :
    conditions.all (MacroCondition.evaluate fns (paramValues.set parameter value)) = true ↔
      (∀ condition ∈ conditions, condition.parameter = parameter → fns.fnmatch condition.valuePattern value = true) ∧
        (conditions.filter fun c => c.parameter ≠ parameter).all (MacroCondition.evaluate fns paramValues) = true := by
  rw [all_eq_true, all_eq_true]
  constructor
  · intro h
    constructor
    · intro condition hmem heq
      have hset := h condition hmem
      rw [evaluate_set_of_eq heq] at hset
      exact hset
    · intro condition hmem
      obtain ⟨hmem, hne⟩ := mem_filter.mp hmem
      have hset := h condition hmem
      rw [evaluate_set_of_ne (of_decide_eq_true hne)] at hset
      exact hset
  · rintro ⟨hon, hother⟩ condition hmem
    by_cases heq : condition.parameter = parameter
    · rw [evaluate_set_of_eq heq]
      exact hon condition hmem heq
    · rw [evaluate_set_of_ne heq]
      exact hother condition (mem_filter.mpr ⟨hmem, decide_eq_true heq⟩)

/-! ## Assignments -/

theorem applies_set_of_not_conditioned (h : ¬v.ConditionedOn parameter) :
    v.applies fns (paramValues.set parameter value) = v.applies fns paramValues := by
  unfold applies
  cases hconditions : v.conditions with
  | none => rfl
  | some conditions =>
    rw [Bool.eq_iff_iff, all_eq_true, all_eq_true]
    refine forall₂_congr fun condition hmem => ?_
    rw [evaluate_set_of_ne fun heq => h ⟨conditions, hconditions, condition, hmem, heq⟩]

variable (fns parameter value) in
/-- The shapes of what binding makes of an assignment. -/
theorem bindAssignment_cases (v : MacroValueAssignment) :
    (¬v.ConditionedOn parameter ∧ bindAssignment fns parameter (.string value) v = some v) ∨
      (∃ conditions, v.conditions = some conditions ∧ v.matchesValue fns parameter (.string value) = true ∧
        bindAssignment fns parameter (.string value) v = some ⟨v.expression,
          if (conditions.filter fun c => c.parameter ≠ parameter).isEmpty then none
          else some (conditions.filter fun c => c.parameter ≠ parameter)⟩) ∨
      (∃ conditions, v.conditions = some conditions ∧ (∃ condition ∈ conditions, condition.parameter = parameter ∧
        fns.fnmatch condition.valuePattern value = false) ∧ bindAssignment fns parameter (.string value) v = none) := by
  unfold bindAssignment matchesValue
  cases hon : v.conditionOn parameter with
  | none =>
    refine .inl ⟨conditionOn_eq_none_iff.mp hon, ?_⟩
    cases v.conditions <;> rfl
  | some condition =>
    right
    cases hconditions : v.conditions with
    | none =>
      rw [conditionOn, hconditions] at hon
      cases hon
    | some conditions =>
      dsimp only
      have hfind : conditions.find? (fun condition => condition.parameter = parameter) = some condition := by
        rw [conditionOn, hconditions] at hon
        exact hon
      have hparameter : condition.parameter = parameter := by simpa using find?_some hfind
      by_cases hmatch : (ConditionValue.string value).evaluate fns condition = true
      · rw [if_pos hmatch]
        exact .inl ⟨conditions, rfl, hmatch, rfl⟩
      · rw [if_neg hmatch]
        exact .inr ⟨conditions, rfl, ⟨condition, mem_of_find?_eq_some hfind, hparameter, eq_false_iff.mpr hmatch⟩,
          rfl⟩

/-- An empty condition set is left out. -/
theorem applies_orNone (expression : MacroExpression) (conditions : List MacroCondition) :
    MacroValueAssignment.applies fns paramValues ⟨expression, if conditions.isEmpty then none else some conditions⟩
      = conditions.all (MacroCondition.evaluate fns paramValues) := by
  cases conditions with
  | nil => rfl
  | cons condition conditions => rfl

variable (paramValues) in
/-- A bound assignment applies where the assignment applies with the parameter set. -/
theorem bindAssignment_some {v' : MacroValueAssignment} (hfirst : FirstConditionDecides fns parameter value v)
    (h : bindAssignment fns parameter (.string value) v = some v') :
    v'.expression = v.expression ∧ v'.applies fns paramValues = v.applies fns (paramValues.set parameter value) := by
  rcases bindAssignment_cases fns parameter value v with
    ⟨hno, hbind⟩ | ⟨conditions, hconditions, hmatch, hbind⟩ | ⟨-, -, -, hbind⟩
  · rw [hbind] at h
    cases h
    exact ⟨rfl, (applies_set_of_not_conditioned hno).symm⟩
  · rw [hbind] at h
    cases h
    refine ⟨rfl, ?_⟩
    have hon := hfirst hmatch conditions hconditions
    have happlies : v.applies fns (paramValues.set parameter value)
        = conditions.all (MacroCondition.evaluate fns (paramValues.set parameter value)) := by
      rw [applies, hconditions]
    rw [applies_orNone, happlies, Bool.eq_iff_iff, all_evaluate_set, and_iff_right hon]
  · rw [hbind] at h
    cases h

/-- An assignment that binding leaves out does not apply with the parameter set. -/
theorem bindAssignment_none (h : bindAssignment fns parameter (.string value) v = none) :
    v.applies fns (paramValues.set parameter value) = false := by
  rcases bindAssignment_cases fns parameter value v with
    ⟨-, hbind⟩ | ⟨_, -, -, hbind⟩ | ⟨conditions, hconditions, ⟨condition, hmem, hparameter, hno⟩, -⟩
  · rw [hbind] at h
    cases h
  · rw [hbind] at h
    cases h
  · rw [applies, hconditions]
    rw [eq_false_iff]
    intro hall
    have hyes := (all_evaluate_set.mp hall).1 condition hmem hparameter
    rw [hno] at hyes
    cases hyes

/-- A bound assignment is not conditioned on the parameter. -/
theorem bindAssignment_not_conditioned {v' : MacroValueAssignment}
    (h : bindAssignment fns parameter (.string value) v = some v') : ¬v'.ConditionedOn parameter := by
  rcases bindAssignment_cases fns parameter value v with
    ⟨hno, hbind⟩ | ⟨conditions, -, -, hbind⟩ | ⟨-, -, -, hbind⟩
  · rw [hbind] at h
    cases h
    exact hno
  · rw [hbind] at h
    cases h
    rintro ⟨conditions', heq, condition, hmem, hparameter⟩
    dsimp only at heq
    split at heq
    · cases heq
    · cases heq
      exact of_decide_eq_true (mem_filter.mp hmem).2 hparameter
  · rw [hbind] at h
    cases h

/-! ## Chains -/

variable (chain : List MacroValueAssignment)

theorem inForce_filterMap_bind
    (hfirst : ∀ v ∈ chain, FirstConditionDecides fns parameter value v) :
    inForce fns paramValues (chain.filterMap (bindAssignment fns parameter (.string value)))
      = inForce fns (paramValues.set parameter value) chain := by
  induction chain with
  | nil => rfl
  | cons v next ih =>
    obtain ⟨hv, hnext⟩ := forall_mem_cons.mp hfirst
    rw [filterMap_cons, inForce]
    cases hbind : bindAssignment fns parameter (.string value) v with
    | none =>
      dsimp only
      rw [bindAssignment_none hbind, if_neg Bool.false_ne_true]
      exact ih hnext
    | some v' =>
      obtain ⟨hexpr, happlies⟩ := bindAssignment_some paramValues hv hbind
      dsimp only
      rw [inForce, hexpr, happlies, ih hnext]

theorem inForce_set_of_not_conditioned
    (h : ∀ v ∈ chain, ¬v.ConditionedOn parameter) :
    inForce fns (paramValues.set parameter value) chain = inForce fns paramValues chain := by
  induction chain with
  | nil => rfl
  | cons v next ih =>
    obtain ⟨hv, hnext⟩ := forall_mem_cons.mp h
    rw [inForce, inForce, applies_set_of_not_conditioned hv, ih hnext]

variable (fns parameter value) in
/-- Binding to one value: the chain stays as it is, or the value decides. -/
theorem bindChain_cases (chain : List MacroValueAssignment) :
    (bindChain fns parameter [.string value] chain = chain ∧
        ∀ v ∈ chain, v.matchesValue fns parameter (.string value) = false) ∨
      (bindChain fns parameter [.string value] chain
          = chain.filterMap (bindAssignment fns parameter (.string value)) ∧
        ∃ v ∈ chain, v.matchesValue fns parameter (.string value) = true) := by
  unfold bindChain findEffectiveConditionValue
  by_cases hany : chain.any (matchesValue fns parameter (.string value)) = true
  · right
    simp only [find?_cons, hany]
    exact ⟨trivial, any_eq_true.mp hany⟩
  · left
    simp only [find?_cons, hany, find?_nil]
    refine ⟨trivial, ?_⟩
    intro v hmem
    rw [eq_false_iff]
    intro hmatch
    exact hany (any_eq_true.mpr ⟨v, hmem, hmatch⟩)

/-- The bound chain has no condition on the parameter left if and only if one of its assignments matches or none is
conditioned on it. -/
theorem bindChain_unconditioned_iff (chain : List MacroValueAssignment) :
    (∀ v ∈ bindChain fns parameter [.string value] chain, ¬v.ConditionedOn parameter)
      ↔ MatchedIfConditioned fns parameter value chain := by
  rcases bindChain_cases fns parameter value chain with ⟨hbind, hno⟩ | ⟨hbind, hyes⟩
  · rw [hbind]
    refine ⟨.inr, ?_⟩
    rintro (⟨v, hmem, hmatch⟩ | h)
    · rw [hno v hmem] at hmatch
      cases hmatch
    · exact h
  · rw [hbind]
    refine iff_of_true ?_ (.inl hyes)
    intro v' hmem
    obtain ⟨v, -, hv⟩ := mem_filterMap.mp hmem
    exact bindAssignment_not_conditioned hv

theorem inForce_bindChain {chain : List MacroValueAssignment} (hmatched : MatchedIfConditioned fns parameter value chain)
    (hfirst : ∀ v ∈ chain, FirstConditionDecides fns parameter value v) :
    inForce fns paramValues (bindChain fns parameter [.string value] chain)
      = inForce fns (paramValues.set parameter value) chain := by
  rcases bindChain_cases fns parameter value chain with ⟨hbind, hno⟩ | ⟨hbind, -⟩
  · have hunconditioned := (bindChain_unconditioned_iff chain).mpr hmatched
    rw [hbind] at hunconditioned ⊢
    exact (inForce_set_of_not_conditioned chain hunconditioned).symm
  · rw [hbind]
    exact inForce_filterMap_bind chain hfirst

/-! ## Tables -/

theorem scopesAgree_bind {table : MacroValueAssignmentTable}
    (h : ∀ entry ∈ table.valueAssignments, MatchedIfConditioned fns parameter value entry.2 ∧
      ∀ v ∈ entry.2, FirstConditionDecides fns parameter value v) (paramValues : ConditionParameterValues) :
    ScopesAgree fns ⟨table.bindConditionParameter fns parameter [.string value], paramValues⟩
      ⟨table, paramValues.set parameter value⟩ where
  macroNamespace := rfl
  newValue := newValueDeclaration_bindConditionParameter fns table parameter _ _ _
  chains decl := by
    dsimp only
    rw [lookupMacro_bindConditionParameter]
    by_cases hnil : table.lookupMacro decl = []
    · rw [hnil, bindChain_nil]
      rfl
    · obtain ⟨hmatched, hfirst⟩ := h _ (lookupMacro_mem hnil)
      exact inForce_bindChain hmatched hfirst

end Binding

def sdkParameter : MacroConditionParameter := ⟨0, text "sdk"⟩

def flagDeclaration : MacroDeclaration := ⟨0, text "FLAG", .string, by decide⟩

/-- A table with one macro. -/
def flagTable (chain : List MacroValueAssignment) : MacroValueAssignmentTable :=
  ⟨.root [flagDeclaration], [(flagDeclaration, chain)]⟩

/-- An assignment of a literal, on a condition and without one. -/
def literalAssignment (value : String) (patterns : List String) : MacroValueAssignment :=
  ⟨parseLiteralString (text value),
    if patterns.isEmpty then none else some (patterns.map fun pattern => ⟨sdkParameter, text pattern⟩)⟩

end Builra.Macro
